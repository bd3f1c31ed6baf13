import PackedMovie.Proofs.Swf.BitPlaces

/-!
# Rows of bit fields read back

Bit fields of any widths up to a word follow one another, whichever bit of a byte each of them begins
at. They fill as many bytes as they need and leave zeros in the last one. Asked for in the same widths,
they are read as what they have room for of the numbers, and from fewer bytes they cannot be read.

Main statement: `BitField.readAll_written`.
-/
namespace PackedMovie.Swf

/-- A field to be written. The bits of the number that are above its width are cut off. -/
inductive BitField where
  | unsigned (width : Nat) (n : UInt32)
  | signed (width : Nat) (n : Int32)
  deriving DecidableEq, Repr

/-- What is asked for. -/
inductive BitFieldKind where
  | unsigned (width : Nat)
  | signed (width : Nat)
  deriving DecidableEq, Repr

namespace BitFieldKind

def width : BitFieldKind → Nat
  | .unsigned width => width
  | .signed width => width

def totalWidth : List BitFieldKind → Nat
  | [] => 0
  | k :: kinds => k.width + totalWidth kinds

def read : BitFieldKind → BitReader BitField
  | .unsigned width => BitField.unsigned width <$> BitReader.unsigned width
  | .signed width => BitField.signed width <$> BitReader.signed width

/-- The same by places. -/
def lookUp (bytes : Bytes) : BitFieldKind → BitPlaces.Lookup BitField
  | .unsigned width => BitField.unsigned width <$> BitPlaces.unsigned bytes width
  | .signed width => BitField.signed width <$> BitPlaces.signed bytes width

def readAll (kinds : List BitFieldKind) : BitReader (List BitField) := kinds.mapM read

def lookUpAll (bytes : Bytes) (kinds : List BitFieldKind) : BitPlaces.Lookup (List BitField) :=
  kinds.mapM (lookUp bytes)

end BitFieldKind

namespace BitField

open BitFieldKind (readAll lookUpAll totalWidth)

def kind : BitField → BitFieldKind
  | .unsigned width _ => .unsigned width
  | .signed width _ => .signed width

def bits : BitField → List Bool
  | .unsigned width n => Bits.unsigned width n
  | .signed width n => Bits.signed width n

/-- What there is room for: the number modulo its range, or its low bits extended by their sign. -/
def kept : BitField → BitField
  | .unsigned width n => .unsigned width (UInt32.ofNat (n.toNat % Nat.pow 2 width))
  | .signed width n => .signed width (Bits.extended width n.toUInt32)

/-- The bytes of some fields. -/
def written (fields : List BitField) : Bytes := Bits.toBytes (fields.flatMap bits)

def put : BitField → BitSink → BitSink
  | .unsigned width n => BitSink.writeUnsigned width n
  | .signed width n => BitSink.writeSigned width n

/-- A new sink after some fields, written bit by bit. -/
def filled (fields : List BitField) : BitSink := fields.foldl (fun s f => f.put s) .empty

end BitField

/-! ### What is asked for -/

namespace BitFieldKind

open BitPlaces (FollowsAt followsAt_unsigned followsAt_signed)

theorem exists_read_eq (k : BitFieldKind) :
    ∃ make, k.read = make <$> BitReader.number k.width := by
  cases k with
  | unsigned width => exact ⟨_, (comp_map _ _ _).symm⟩
  | signed width => exact ⟨_, (comp_map _ _ _).symm⟩

variable {k : BitFieldKind} {c : BitCursor}

theorem read_whole (h : k.width ≤ c.rest.length) :
    ∃ f, k.read c = .ok f ⟨c.read + k.width, c.rest.drop k.width⟩ := by
  obtain ⟨make, hmake⟩ := k.exists_read_eq
  have htaken : (c.rest.take k.width).length = k.width := List.length_take_of_le h
  refine ⟨make (Bits.toNat (c.rest.take k.width)), ?_⟩
  simp only [hmake, Functor.map, EStateM.map, BitReader.number, htaken, ↓reduceIte]

theorem read_short (h : c.rest.length < k.width) :
    ∃ d, k.read c = .error .unexpectedEnd d := by
  obtain ⟨make, hmake⟩ := k.exists_read_eq
  have htaken : (c.rest.take k.width).length ≠ k.width := by
    rw [List.length_take]
    omega
  refine ⟨⟨c.read + (c.rest.take k.width).length, []⟩, ?_⟩
  simp only [hmake, Functor.map, EStateM.map, BitReader.number, htaken, ↓reduceIte]

theorem readAll_cons (k : BitFieldKind) (kinds : List BitFieldKind) :
    readAll (k :: kinds) = k.read >>= fun f => (f :: ·) <$> readAll kinds := by
  simp only [readAll, List.mapM_cons, map_eq_pure_bind]

/-- Without enough bits for all that is asked for, something is missing. -/
theorem readAll_short {kinds : List BitFieldKind} {c : BitCursor}
    (h : c.rest.length < totalWidth kinds) :
    ∃ d, readAll kinds c = .error .unexpectedEnd d := by
  induction kinds generalizing c with
  | nil => exact absurd h (Nat.not_lt_zero _)
  | cons k kinds ih =>
    rw [totalWidth] at h
    rw [readAll_cons]
    by_cases hroom : k.width ≤ c.rest.length
    · obtain ⟨f, hf⟩ := read_whole hroom
      obtain ⟨d, hd⟩ := ih (c := ⟨c.read + k.width, c.rest.drop k.width⟩)
        (by rw [List.length_drop]; omega)
      refine ⟨d, ?_⟩
      simp only [Bind.bind, EStateM.bind, Functor.map, EStateM.map, hf, hd]
    · obtain ⟨d, hd⟩ := read_short (Nat.lt_of_not_le hroom)
      refine ⟨d, ?_⟩
      simp only [Bind.bind, EStateM.bind, hd]

theorem followsAt_read (bytes : Bytes) (k : BitFieldKind) :
    FollowsAt bytes (k.lookUp bytes) k.read := by
  cases k with
  | unsigned width => exact (followsAt_unsigned bytes width).map _
  | signed width => exact (followsAt_signed bytes width).map _

theorem followsAt_readAll (bytes : Bytes) (kinds : List BitFieldKind) :
    FollowsAt bytes (lookUpAll bytes kinds) (readAll kinds) := by
  induction kinds with
  | nil => exact FollowsAt.pure []
  | cons k kinds ih =>
    simp only [lookUpAll, readAll, List.mapM_cons]
    exact (followsAt_read bytes k).bind fun f => ih.bind fun fields => FollowsAt.pure (f :: fields)

end BitFieldKind

/-! ### What was written -/

namespace BitField

open BitFieldKind (readAll readAll_cons readAll_short lookUpAll followsAt_readAll totalWidth)

theorem length_bits (f : BitField) : f.bits.length = f.kind.width := by
  cases f <;> exact Bits.length_ofNat _ _

theorem length_flatMap_bits (fields : List BitField) :
    (fields.flatMap bits).length = totalWidth (fields.map kind) := by
  induction fields with
  | nil => rfl
  | cons f fields ih =>
    rw [List.flatMap_cons, List.length_append, length_bits, ih, List.map_cons, totalWidth]

theorem length_written (fields : List BitField) :
    (written fields).length = (totalWidth (fields.map kind) + 7) / 8 := by
  rw [written, Bits.length_toBytes, length_flatMap_bits]

theorem ofBytes_written (fields : List BitField) :
    Bits.ofBytes (written fields) = fields.flatMap bits ++
      List.replicate (8 * (written fields).length - totalWidth (fields.map kind)) false := by
  obtain ⟨count, hbits⟩ := Bits.ofBytes_toBytes (fields.flatMap bits)
  rw [← written] at hbits
  have hlength := congrArg List.length hbits
  rw [Bits.length_ofBytes, List.length_append, length_flatMap_bits, List.length_replicate]
    at hlength
  rw [hbits, hlength, Nat.add_sub_cancel_left]

theorem put_ofBits {f : BitField} (h : f.kind.width ≤ 32) (bits : List Bool) :
    f.put (.ofBits bits) = .ofBits (bits ++ f.bits) := by
  cases f with
  | unsigned width n => exact BitSink.writeUnsigned_ofBits h n bits
  | signed width n => exact BitSink.writeSigned_ofBits h n bits

theorem foldl_put_ofBits {fields : List BitField} (h : ∀ f ∈ fields, f.kind.width ≤ 32)
    (bits : List Bool) :
    fields.foldl (fun s f => f.put s) (.ofBits bits) =
      .ofBits (bits ++ fields.flatMap BitField.bits) := by
  induction fields generalizing bits with
  | nil => rw [List.flatMap_nil, List.append_nil, List.foldl_nil]
  | cons f fields ih =>
    rw [List.forall_mem_cons] at h
    rw [List.foldl_cons, put_ofBits h.1, ih h.2, List.flatMap_cons, List.append_assoc]

theorem filled_eq {fields : List BitField} (h : ∀ f ∈ fields, f.kind.width ≤ 32) :
    filled fields = ⟨written fields, totalWidth (fields.map kind)⟩ := by
  have hempty : BitSink.ofBits [] = .empty := by
    rw [BitSink.ofBits, Bits.toBytes_nil]
    rfl
  rw [filled, ← hempty, foldl_put_ofBits h, List.nil_append, BitSink.ofBits, length_flatMap_bits,
    written]

theorem bitReads {f : BitField} (h : f.kind.width ≤ 32) : BitReads f.kind.read f.bits f.kept := by
  cases f with
  | unsigned width n => exact ((BitReads.number width n.toNat).map _).map _
  | signed width n =>
    have hkept : Bits.kept width n = Bits.extended width n.toUInt32 := Bits.kept_eq_extended h n
    rw [kept, ← hkept]
    exact (BitReads.signed width n).map _

theorem bitReads_readAll {fields : List BitField} (h : ∀ f ∈ fields, f.kind.width ≤ 32) :
    BitReads (readAll (fields.map kind)) (fields.flatMap bits) (fields.map kept) := by
  induction fields with
  | nil => exact fun _ _ => rfl
  | cons f fields ih =>
    rw [List.forall_mem_cons] at h
    rw [List.map_cons, readAll_cons, List.flatMap_cons, List.map_cons]
    exact (bitReads h.1).bind ((ih h.2).map _)

theorem readAll_append {fields : List BitField} (h : ∀ f ∈ fields, f.kind.width ≤ 32)
    (rest : Bytes) :
    ∃ c, readAll (fields.map kind) (.ofBytes (written fields ++ rest)) = .ok (fields.map kept) c ∧
      c.read = totalWidth (fields.map kind) := by
  have hreads := bitReads_readAll h 0
    (List.replicate (8 * (written fields).length - totalWidth (fields.map kind)) false ++
      Bits.ofBytes rest)
  rw [← List.append_assoc, ← ofBytes_written, ← Bits.ofBytes_append] at hreads
  refine ⟨_, hreads, ?_⟩
  rw [Nat.zero_add, length_flatMap_bits]

/-- Bytes that are cut off have been begun for bits that are missing now. -/
theorem readAll_cut {fields : List BitField} {front : Bytes} (hfront : front <+: written fields)
    (hne : front ≠ written fields) :
    ∃ c, readAll (fields.map kind) (.ofBytes front) = .error .unexpectedEnd c := by
  have hlength : front.length < (written fields).length :=
    Nat.lt_of_le_of_ne hfront.length_le fun heq => hne (hfront.eq_of_length heq)
  apply readAll_short
  rw [length_written] at hlength
  rw [BitCursor.ofBytes, Bits.length_ofBytes]
  omega

/-- Fields of any widths up to a word fill as many bytes as they need, and the rest of the last one
with zeros, also when they are put there bit by bit. From these bytes, whatever follows them, all are
read back, and no more bytes than these are begun; with any of them missing at the end they are not
read. Looking each bit up by its place comes to the same. -/
theorem readAll_written {fields : List BitField} (h : ∀ f ∈ fields, f.kind.width ≤ 32) :
    filled fields = ⟨written fields, totalWidth (fields.map kind)⟩ ∧
      (written fields).length = (totalWidth (fields.map kind) + 7) / 8 ∧
      Bits.ofBytes (written fields) = fields.flatMap bits ++
        List.replicate (8 * (written fields).length - totalWidth (fields.map kind)) false ∧
      (∀ rest, ∃ c,
        readAll (fields.map kind) (.ofBytes (written fields ++ rest)) = .ok (fields.map kept) c ∧
        lookUpAll (written fields ++ rest) (fields.map kind) 0 = .ok (fields.map kept) c.read ∧
        c.byteLength = (written fields).length) ∧
      ∀ front, front <+: written fields → front ≠ written fields →
        ∃ c, readAll (fields.map kind) (.ofBytes front) = .error .unexpectedEnd c ∧
          lookUpAll front (fields.map kind) 0 = .error .unexpectedEnd c.read := by
  refine ⟨filled_eq h, length_written fields, ofBytes_written fields, ?_, ?_⟩
  · intro rest
    obtain ⟨c, hread, hcount⟩ := readAll_append h rest
    refine ⟨c, hread, ?_, ?_⟩
    · rw [(followsAt_readAll _ _).lookup_eq, hread]
    · rw [BitCursor.byteLength, hcount, length_written]
  · intro front hfront hne
    obtain ⟨c, hread⟩ := readAll_cut hfront hne
    refine ⟨c, hread, ?_⟩
    rw [(followsAt_readAll _ _).lookup_eq, hread]

/-- Fields across bytes, one of no bits and one of a whole word among them; two are too narrow. -/
def straddling : List BitField :=
  [.unsigned 5 15, .signed 15 (-20), .signed 0 7, .unsigned 32 0xDEADBEEF, .signed 3 13,
    .unsigned 4 0xFA]

theorem readAll_written_straddling :
    (∀ f ∈ straddling, f.kind.width ≤ 32) ∧ (written straddling).length = 8 ∧
      (∃ c, readAll (straddling.map kind) (.ofBytes (written straddling ++ [0xFF])) =
          .ok [.unsigned 5 15, .signed 15 (-20), .signed 0 0, .unsigned 32 0xDEADBEEF,
            .signed 3 (-3), .unsigned 4 10] c ∧
        c.byteLength = 8) ∧
      ∃ c, readAll (straddling.map kind) (.ofBytes ((written straddling).take 7)) =
        .error .unexpectedEnd c := by
  have hwidths : ∀ f ∈ straddling, f.kind.width ≤ 32 := by decide
  have hkept : straddling.map kept = [.unsigned 5 15, .signed 15 (-20), .signed 0 0,
      .unsigned 32 0xDEADBEEF, .signed 3 (-3), .unsigned 4 10] := by decide +kernel
  obtain ⟨-, hlength, -, hread, hcut⟩ := readAll_written hwidths
  have height : (written straddling).length = 8 := hlength.trans (by decide)
  refine ⟨hwidths, height, ?_, ?_⟩
  · obtain ⟨c, hc, -, hbytes⟩ := hread [0xFF]
    rw [hkept] at hc
    exact ⟨c, hc, hbytes.trans height⟩
  · have hshort : (written straddling).take 7 ≠ written straddling := by
      intro heq
      have hseven := congrArg List.length heq
      rw [List.length_take, height] at hseven
      exact absurd hseven (by decide)
    obtain ⟨c, hc, -⟩ := hcut _ (List.take_prefix 7 _) hshort
    exact ⟨c, hc⟩

end BitField
end PackedMovie.Swf
