import Mathlib.Data.List.ModifyLast
import PackedMovie.Proofs.Swf.Bits

/-!
# Bit by bit

Bits can be put into bytes one at a time, each at the place where the one before it ended, and be
looked up again by their places. Either way of writing makes the same bytes, and from any place either
way of reading comes to the same value and the same place.

Main statements: `BitSink.writeUnsigned_ofBits`, `BitPlaces.followsAt_unsigned`,
`BitPlaces.followsAt_signed`.
-/
namespace PackedMovie.Swf

/-! ### Putting bits -/

/-- Bytes that are being filled, and how many bits are in them. -/
structure BitSink where
  bytes : Bytes
  count : Nat
  deriving DecidableEq, Repr

namespace BitSink

def empty : BitSink := ⟨[], 0⟩

/-- Bytes with room in the last one. If it is full, a byte is begun. -/
def begun (s : BitSink) : Bytes := if s.count % 8 = 0 then s.bytes ++ [0] else s.bytes

/-- One more bit, behind the others in the last byte. -/
def put (bit : UInt8) (s : BitSink) : BitSink :=
  ⟨s.begun.modifyLast (· ||| bit <<< UInt8.ofNat (7 - s.count % 8)), s.count + 1⟩

def writeUnsigned : Nat → UInt32 → BitSink → BitSink
  | 0, _, s => s
  | width + 1, n, s => writeUnsigned width n (s.put ((n >>> UInt32.ofNat width) &&& 1).toUInt8)

def writeSigned (width : Nat) (n : Int32) : BitSink → BitSink := writeUnsigned width n.toUInt32

/-- The sink that has these bits. -/
def ofBits (bits : List Bool) : BitSink := ⟨Bits.toBytes bits, bits.length⟩

end BitSink

namespace Bits

/-- A byte that begins with these bits, eight at most. -/
def octet (bits : List Bool) : UInt8 :=
  UInt8.ofNat (toNat (bits ++ List.replicate (8 - bits.length) false))

theorem toNat_append (front back : List Bool) :
    toNat (front ++ back) = toNat front * Nat.pow 2 back.length + toNat back := by
  rw [toNat, List.foldl_append, foldl_toNat, ← toNat]

theorem toNat_zeros (count : Nat) : toNat (List.replicate count false) = 0 := by
  induction count with
  | zero => rfl
  | succ count ih =>
    rw [List.replicate_succ, toNat_cons, ih, Bool.toNat_false, Nat.zero_mul]

theorem toNat_append_zeros (bits : List Bool) (count : Nat) :
    toNat (bits ++ List.replicate count false) = toNat bits <<< count := by
  rw [toNat_append, toNat_zeros, List.length_replicate, Nat.add_zero, Nat.shiftLeft_eq]
  rfl

theorem toNat_concat (bits : List Bool) (b : Bool) :
    toNat (bits ++ [b]) = 2 * toNat bits + b.toNat := by
  rw [toNat, List.foldl_append]
  rfl

/-- A bit that is put below others does not meet any of them. -/
theorem shiftLeft_or (n count : Nat) (b : Bool) :
    n <<< (count + 1) ||| b.toNat <<< count = (2 * n + b.toNat) <<< count := by
  have hbit : b.toNat <<< count < 2 ^ (count + 1) := by
    rw [Nat.shiftLeft_eq, Nat.pow_succ']
    exact Nat.mul_lt_mul_of_pos_right (Bool.toNat_lt b) (Nat.two_pow_pos count)
  rw [← Nat.shiftLeft_add_eq_or_of_lt hbit, Nat.shiftLeft_eq, Nat.shiftLeft_eq, Nat.shiftLeft_eq,
    Nat.add_mul, Nat.pow_succ', Nat.mul_comm 2 n, Nat.mul_assoc]

/-- A bit that is put behind others goes into the byte's next place. -/
theorem octet_concat {bits : List Bool} (h : bits.length < 8) (b : Bool) :
    octet (bits ++ [b]) = octet bits ||| b.toUInt8 <<< UInt8.ofNat (7 - bits.length) := by
  have hfree : 8 - bits.length = 7 - bits.length + 1 := by omega
  have hleft : 8 - (bits.length + 1) = 7 - bits.length := by omega
  have hword : b.toUInt8 = UInt8.ofNat b.toNat := by cases b <;> rfl
  rw [octet, octet, List.length_append, List.length_singleton, hleft, hfree, toNat_append_zeros,
    toNat_append_zeros, toNat_concat, ← shiftLeft_or, UInt8.ofNat_or, hword,
    UInt8.ofNat_shiftLeft b.toNat (7 - bits.length) (by omega)]

theorem toBytes_nil : toBytes [] = [] := by
  rw [toBytes]
  rfl

theorem toBytes_short {bits : List Bool} (hpos : bits ≠ []) (h : bits.length ≤ 8) :
    toBytes bits = [octet bits] := by
  have hempty : bits.isEmpty = false := by simpa using hpos
  rw [toBytes, hempty, List.take_of_length_le h, List.drop_eq_nil_of_le h, toBytes]
  rfl

/-- Bits make full bytes and a rest. -/
theorem exists_full_short (bits : List Bool) : ∃ full short : List Bool,
    bits = full ++ short ∧ full.length % 8 = 0 ∧ short.length < 8 := by
  refine ⟨bits.take (8 * (bits.length / 8)), bits.drop (8 * (bits.length / 8)),
    (List.take_append_drop _ _).symm, ?_, ?_⟩
  · rw [List.length_take]
    omega
  · rw [List.length_drop]
    omega

theorem toBytes_append_of_full {front : List Bool} (h : front.length % 8 = 0)
    (back : List Bool) : toBytes (front ++ back) = toBytes front ++ toBytes back := by
  fun_induction toBytes front with
  | case1 front hempty =>
    rw [List.isEmpty_iff.1 hempty]
    rfl
  | case2 front hempty ih =>
    have hpos : front ≠ [] := by simpa using hempty
    have hlong : 8 ≤ front.length := by
      have hlength := List.length_pos_iff.2 hpos
      omega
    have hnonempty : (front ++ back).isEmpty = false := by simp [hpos]
    have hrest := ih (by rw [List.length_drop]; omega)
    rw [toBytes, hnonempty, List.take_append_of_le_length hlong, List.drop_append_of_le_length hlong,
      hrest, List.length_append, Nat.sub_eq_zero_of_le hlong, Nat.sub_eq_zero_of_le (by omega)]
    rfl

theorem shiftRight_and_one (n i : Nat) : n >>> i &&& 1 = (n.testBit i).toNat := by
  rw [Nat.and_one_is_mod, Nat.shiftRight_eq_div_pow, ← Nat.toNat_testBit]

/-- The bit of a word at a place. -/
theorem wordBit_eq {i : Nat} (h : i < 32) (n : UInt32) :
    ((n >>> UInt32.ofNat i) &&& 1).toUInt8 = (n.toNat.testBit i).toUInt8 := by
  have hplace : (UInt32.ofNat i).toNat % 32 = i := by
    rw [UInt32.toNat_ofNat_of_lt' (Nat.lt_trans h (by decide)), Nat.mod_eq_of_lt h]
  have hbit : (n >>> UInt32.ofNat i) &&& 1 = (n.toNat.testBit i).toUInt32 := by
    rw [← UInt32.toNat_inj, UInt32.toNat_and, UInt32.toNat_shiftRight, hplace, UInt32.toNat_one,
      shiftRight_and_one]
    cases n.toNat.testBit i <;> rfl
  rw [hbit]
  cases n.toNat.testBit i <;> rfl

/-- The bit of a byte at a place. -/
theorem byteBit_eq {i : Nat} (h : i < 8) (byte : UInt8) :
    ((byte >>> UInt8.ofNat i) &&& 1).toUInt32 = (byte.toNat.testBit i).toUInt32 := by
  have hplace : (UInt8.ofNat i).toNat % 8 = i := by
    rw [UInt8.toNat_ofNat_of_lt' (Nat.lt_trans h (by decide)), Nat.mod_eq_of_lt h]
  have hbit : (byte >>> UInt8.ofNat i) &&& 1 = (byte.toNat.testBit i).toUInt8 := by
    rw [← UInt8.toNat_inj, UInt8.toNat_and, UInt8.toNat_shiftRight, hplace, UInt8.toNat_one,
      shiftRight_and_one]
    cases byte.toNat.testBit i <;> rfl
  rw [hbit]
  cases byte.toNat.testBit i <;> rfl

theorem getElem?_ofNat (width n i : Nat) :
    (ofNat width n)[i]? = if i < width then some (n.testBit (width - 1 - i)) else none := by
  induction width generalizing i with
  | zero => rfl
  | succ width ih =>
    cases i with
    | zero => rfl
    | succ i =>
      have hplace : width + 1 - 1 - (i + 1) = width - 1 - i := by omega
      rw [ofNat, List.getElem?_cons_succ, ih, hplace]
      simp only [Nat.add_lt_add_iff_right]

theorem getElem?_ofBytes (bytes : Bytes) (place : Nat) :
    (ofBytes bytes)[place]? =
      (bytes[place / 8]?).map fun byte => byte.toNat.testBit (7 - place % 8) := by
  induction bytes generalizing place with
  | nil => rfl
  | cons byte rest ih =>
    rw [ofBytes, List.flatMap_cons, ← ofBytes]
    by_cases hfirst : place < 8
    · rw [List.getElem?_append_left (by rwa [length_ofNat]), getElem?_ofNat, if_pos hfirst,
        Nat.div_eq_of_lt hfirst, Nat.mod_eq_of_lt hfirst]
      rfl
    · obtain ⟨place, rfl⟩ := Nat.exists_eq_add_of_le' (Nat.le_of_not_lt hfirst)
      rw [List.getElem?_append_right (by rw [length_ofNat]; omega), length_ofNat,
        Nat.add_sub_cancel, ih, Nat.add_div_right place (by decide), List.getElem?_cons_succ,
        Nat.add_mod_right]

/-- The low bits of a word, with the highest of them repeated up to the full width. -/
def extended (width : Nat) (n : UInt32) : Int32 :=
  .ofBitVec ((n.toBitVec.setWidth width).signExtend 32)

theorem ofInt_field {width : Nat} (h : width ≤ 32) (n : Nat) :
    Int32.ofInt (if width < 32 then Int.bmod n (Nat.pow 2 width) else n) =
      extended width (UInt32.ofNat n) := by
  have hlow : (UInt32.ofNat n).toBitVec.setWidth width = BitVec.ofNat width n :=
    BitVec.setWidth_ofNat_of_le h n
  rw [extended, hlow]
  split
  · exact congrArg Int32.ofInt (BitVec.toInt_ofNat n).symm
  · obtain rfl : width = 32 := by omega
    rw [BitVec.signExtend_eq]
    rfl

theorem kept_eq_extended {width : Nat} (h : width ≤ 32) (n : Int32) :
    kept width n = extended width n.toUInt32 := by
  have hlow : BitVec.ofNat width (n.toUInt32.toNat % Nat.pow 2 width) =
      n.toUInt32.toBitVec.setWidth width := by
    apply BitVec.eq_of_toNat_eq
    rw [BitVec.toNat_ofNat, BitVec.toNat_setWidth]
    exact Nat.mod_mod _ _
  have hfield := ofInt_field h (n.toUInt32.toNat % Nat.pow 2 width)
  rw [extended, UInt32.toBitVec_ofNat', BitVec.setWidth_ofNat_of_le h, hlow] at hfield
  exact hfield

theorem sshiftRight_shiftLeft {width : Nat} (hpos : 0 < width) (h : width ≤ 32) (x : BitVec 32) :
    (x <<< (32 - width)).sshiftRight (32 - width) = (x.setWidth width).signExtend 32 := by
  apply BitVec.eq_of_getElem_eq
  intro i hi
  -- Above the field both have its highest bit.
  rw [BitVec.getElem_sshiftRight, BitVec.getElem_signExtend]
  by_cases hlow : i < width
  · have hback : 32 - width + i - (32 - width) = i := by omega
    have hroom : ¬ 32 - width + i < 32 - width := by omega
    rw [dif_pos (by omega), dif_pos hlow, BitVec.getElem_shiftLeft, BitVec.getElem_setWidth]
    simp only [hroom, hback, BitVec.getLsbD_eq_getElem hi, decide_false, Bool.not_false,
      Bool.true_and]
  · have htop : 32 - 1 - (32 - width) = width - 1 := by omega
    rw [dif_neg (by omega), dif_neg hlow, BitVec.msb_shiftLeft, BitVec.msb_setWidth,
      BitVec.getMsbD, htop, decide_eq_true hpos, decide_eq_true (by omega)]

end Bits

namespace BitSink

section

variable {full short : List Bool} (hfull : full.length % 8 = 0) (hshort : short.length < 8)
include hfull hshort

theorem count_ofBits : (ofBits (full ++ short)).count % 8 = short.length := by
  change (full ++ short).length % 8 = short.length
  rw [List.length_append]
  omega

theorem begun_ofBits :
    (ofBits (full ++ short)).begun = Bits.toBytes full ++ [Bits.octet short] := by
  rw [begun, count_ofBits hfull hshort, ofBits, Bits.toBytes_append_of_full hfull]
  by_cases hnone : short = []
  · subst hnone
    rw [List.length_nil, if_pos rfl, Bits.toBytes_nil, List.append_nil]
    rfl
  · rw [if_neg (mt List.length_eq_zero_iff.1 hnone), Bits.toBytes_short hnone (Nat.le_of_lt hshort)]

end

/-- Only the byte that a bit is put into changes. -/
theorem put_ofBits (bits : List Bool) (b : Bool) :
    put b.toUInt8 (ofBits bits) = ofBits (bits ++ [b]) := by
  obtain ⟨full, short, rfl, hfull, hshort⟩ := Bits.exists_full_short bits
  have hlength : (short ++ [b]).length ≤ 8 := by
    rw [List.length_append]
    exact hshort
  have hcount : (full ++ short ++ [b]).length = (full ++ short).length + 1 := List.length_append
  rw [put, begun_ofBits hfull hshort, count_ofBits hfull hshort, List.modifyLast_concat,
    ← Bits.octet_concat hshort, ← Bits.toBytes_short (List.concat_ne_nil b short) hlength,
    ← Bits.toBytes_append_of_full hfull, ← List.append_assoc, ofBits, ofBits, hcount]

/-- The bits of a word are put from the one at the width on down. -/
theorem writeUnsigned_ofBits {width : Nat} (h : width ≤ 32) (n : UInt32) (bits : List Bool) :
    writeUnsigned width n (ofBits bits) = ofBits (bits ++ Bits.unsigned width n) := by
  unfold Bits.unsigned
  induction width generalizing bits with
  | zero => rw [writeUnsigned, Bits.ofNat, List.append_nil]
  | succ width ih =>
    rw [writeUnsigned, Bits.wordBit_eq h, put_ofBits, ih (Nat.le_of_lt h), Bits.ofNat,
      List.append_assoc]
    rfl

theorem writeSigned_ofBits {width : Nat} (h : width ≤ 32) (n : Int32) (bits : List Bool) :
    writeSigned width n (ofBits bits) = ofBits (bits ++ Bits.signed width n) :=
  writeUnsigned_ofBits h n.toUInt32 bits

end BitSink

/-! ### Looking bits up -/

namespace BitPlaces

/-- A step that reads bits on from a place, and leaves a place behind, also when it fails. -/
abbrev Lookup := EStateM Error Nat

/-- The bit at the place, of the byte that the place lies in. -/
def bit (bytes : Bytes) : Lookup UInt32 := fun place =>
  match bytes[place / 8]? with
  | some byte => .ok ((byte >>> UInt8.ofNat (7 - place % 8)) &&& 1).toUInt32 (place + 1)
  | none => .error .unexpectedEnd place

/-- The next bits, shifted into a word one after another. -/
def shiftIn (bytes : Bytes) : Nat → UInt32 → Lookup UInt32
  | 0, n => pure n
  | width + 1, n => do
    let b ← bit bytes
    shiftIn bytes width (n <<< 1 ||| b)

def unsigned (bytes : Bytes) (width : Nat) : Lookup UInt32 := shiftIn bytes width 0

/-- The sign of a field is spread by shifting the field up to the end of the word and down again. -/
def spread (width : Nat) (n : UInt32) : Int32 :=
  if width = 0 ∨ 32 ≤ width then n.toInt32
  else
    let spare := UInt32.ofNat (32 - width)
    (n <<< spare).toInt32 >>> spare.toInt32

def signed (bytes : Bytes) (width : Nat) : Lookup Int32 := spread width <$> unsigned bytes width

/-! ### Values -/

theorem bit_eq (bytes : Bytes) (place : Nat) :
    bit bytes place = match (Bits.ofBytes bytes).drop place with
      | [] => .error .unexpectedEnd place
      | b :: _ => .ok b.toUInt32 (place + 1) := by
  have hhead := Bits.getElem?_ofBytes bytes place
  rw [← List.head?_drop] at hhead
  rw [bit]
  cases hbyte : bytes[place / 8]? with
  | none =>
    rw [hbyte, Option.map_none, List.head?_eq_none_iff] at hhead
    rw [hhead]
  | some byte =>
    rw [hbyte, Option.map_some, List.head?_eq_some_iff] at hhead
    obtain ⟨rest, hrest⟩ := hhead
    rw [hrest]
    simp only
    rw [Bits.byteBit_eq (by omega)]

theorem shift_bit (n : Nat) (b : Bool) :
    UInt32.ofNat n <<< 1 ||| b.toUInt32 = UInt32.ofNat (2 * n + b.toNat) := by
  have hword : b.toUInt32 = UInt32.ofNat b.toNat := by cases b <;> rfl
  have hshift : UInt32.ofNat n <<< 1 = UInt32.ofNat (n <<< 1) :=
    (UInt32.ofNat_shiftLeft n 1 (by decide)).symm
  have hsum : n <<< 1 ||| b.toNat = 2 * n + b.toNat := Bits.shiftLeft_or n 0 b
  rw [hword, hshift, ← UInt32.ofNat_or, hsum]

theorem shiftIn_eq (bytes : Bytes) (width n place : Nat) :
    shiftIn bytes width (UInt32.ofNat n) place =
      let taken := ((Bits.ofBytes bytes).drop place).take width
      if taken.length = width then
        .ok (UInt32.ofNat (taken.foldl (fun n b => 2 * n + b.toNat) n)) (place + width)
      else .error .unexpectedEnd (place + taken.length) := by
  induction width generalizing n place with
  | zero => rfl
  | succ width ih =>
    simp only [shiftIn, bind, EStateM.bind, bit_eq]
    -- Either there is no bit at the place, or one bit less is left to take behind it.
    cases hrest : (Bits.ofBytes bytes).drop place with
    | nil => rfl
    | cons b rest =>
      have hdrop : (Bits.ofBytes bytes).drop (place + 1) = rest := by
        rw [← List.drop_drop, hrest]
        rfl
      simp only [shift_bit, ih, hdrop, List.take_succ_cons, List.length_cons, List.foldl_cons,
        Nat.add_right_cancel_iff, Nat.add_assoc, Nat.add_comm 1]

theorem spread_eq_extended {width : Nat} (hpos : 0 < width) (h : width < 32) (n : UInt32) :
    spread width n = Bits.extended width n := by
  have hspare : ((UInt32.ofNat (32 - width)).toBitVec % 32).toNat = 32 - width := by
    rw [BitVec.toNat_umod]
    change (32 - width) % 4294967296 % 32 = 32 - width
    omega
  have hpositive : (UInt32.ofNat (32 - width)).toBitVec.msb = false := by
    rw [BitVec.msb_eq_false_iff_two_mul_lt]
    change 2 * ((32 - width) % 4294967296) < 4294967296
    omega
  have hsigned : ((UInt32.ofNat (32 - width)).toBitVec.smod 32).toNat = 32 - width := by
    rw [BitVec.toNat_smod, hpositive]
    exact hspare
  rw [← Int32.toBitVec_inj, spread, if_neg (by omega)]
  simp only [Int32.toBitVec_shiftRight, BitVec.sshiftRight_eq', UInt32.toBitVec_toInt32,
    UInt32.toBitVec_shiftLeft, BitVec.shiftLeft_eq', hsigned, hspare]
  exact Bits.sshiftRight_shiftLeft hpos (Nat.le_of_lt h) n.toBitVec

theorem spread_eq {width n : Nat} (h : n < Nat.pow 2 width) :
    spread width (UInt32.ofNat n) =
      Int32.ofInt (if width < 32 then Int.bmod n (Nat.pow 2 width) else n) := by
  by_cases hwide : 32 ≤ width
  · rw [spread, if_pos (.inr hwide), if_neg (Nat.not_lt.2 hwide)]
    rfl
  · by_cases hnone : width = 0
    · subst hnone
      obtain rfl : n = 0 := Nat.lt_one_iff.1 h
      rfl
    · rw [spread_eq_extended (Nat.pos_of_ne_zero hnone) (Nat.lt_of_not_le hwide),
        Bits.ofInt_field (Nat.le_of_not_le hwide)]

/-! ### Following a cursor -/

/-- The cursor that stands at a place. -/
def cursorAt (bytes : Bytes) (place : Nat) : BitCursor := ⟨place, (Bits.ofBytes bytes).drop place⟩

/-- From any place, looking up ends as reading does, and at the place that the cursor is left at. -/
def FollowsAt {α : Type} (bytes : Bytes) (lookup : Lookup α) (r : BitReader α) : Prop :=
  ∀ place, r (cursorAt bytes place) = match lookup place with
    | .ok a next => .ok a (cursorAt bytes next)
    | .error e next => .error e (cursorAt bytes next)

namespace FollowsAt

variable {α β : Type} {bytes : Bytes}

theorem pure (a : α) : FollowsAt bytes (Pure.pure a) (Pure.pure a) := fun _ => rfl

theorem bind {lookup : Lookup α} {r : BitReader α} {f : α → Lookup β} {g : α → BitReader β}
    (h : FollowsAt bytes lookup r) (hf : ∀ a, FollowsAt bytes (f a) (g a)) :
    FollowsAt bytes (lookup >>= f) (r >>= g) := by
  intro place
  simp only [Bind.bind, EStateM.bind]
  rw [h place]
  cases lookup place with
  | ok a next => exact hf a next
  | error e next => rfl

theorem map {lookup : Lookup α} {r : BitReader α} (f : α → β) (h : FollowsAt bytes lookup r) :
    FollowsAt bytes (f <$> lookup) (f <$> r) := by
  rw [map_eq_pure_bind, map_eq_pure_bind]
  exact h.bind fun a => FollowsAt.pure (f a)

theorem lookup_eq {lookup : Lookup α} {r : BitReader α} (h : FollowsAt bytes lookup r) :
    lookup 0 = match r (.ofBytes bytes) with
      | .ok a c => .ok a c.read
      | .error e c => .error e c.read := by
  have hstart : r (.ofBytes bytes) = _ := h 0
  rw [hstart]
  cases lookup 0 <;> rfl

end FollowsAt

theorem number_cursorAt (bytes : Bytes) (width place : Nat) :
    BitReader.number width (cursorAt bytes place) =
      let taken := ((Bits.ofBytes bytes).drop place).take width
      if taken.length = width then .ok (Bits.toNat taken) (cursorAt bytes (place + width))
      else .error .unexpectedEnd (cursorAt bytes (place + taken.length)) := by
  unfold BitReader.number cursorAt
  simp only [List.drop_drop]
  split
  · rfl
  · rename_i hshort
    -- What was taken is all that there was, so nothing is left behind it.
    have hend : (Bits.ofBytes bytes).drop
        (place + (((Bits.ofBytes bytes).drop place).take width).length) = [] := by
      apply List.drop_eq_nil_of_le
      rw [List.length_take, List.length_drop] at hshort ⊢
      omega
    rw [hend]

/-- It does not matter whether bits beyond a word are cut off at once or at the end. -/
theorem followsAt_number {α : Type} {width : Nat} {f : Nat → α} {g : UInt32 → α}
    (h : ∀ n, n < Nat.pow 2 width → g (UInt32.ofNat n) = f n) (bytes : Bytes) :
    FollowsAt bytes (g <$> unsigned bytes width) (f <$> BitReader.number width) := by
  intro place
  have hlookup : unsigned bytes width place = _ := shiftIn_eq bytes width 0 place
  simp only [Functor.map, EStateM.map, number_cursorAt, hlookup]
  by_cases hwhole : (((Bits.ofBytes bytes).drop place).take width).length = width
  · have hlt := Bits.toNat_lt (((Bits.ofBytes bytes).drop place).take width)
    rw [hwhole] at hlt
    have hvalue := h _ hlt
    rw [Bits.toNat] at hvalue
    simp only [if_pos hwhole, hvalue, Bits.toNat]
  · simp only [if_neg hwhole]

theorem followsAt_unsigned (bytes : Bytes) (width : Nat) :
    FollowsAt bytes (unsigned bytes width) (BitReader.unsigned width) := by
  have hnumber := followsAt_number (g := id) (fun n (_ : n < Nat.pow 2 width) => rfl) bytes
  rwa [id_map] at hnumber

theorem followsAt_signed (bytes : Bytes) (width : Nat) :
    FollowsAt bytes (signed bytes width) (BitReader.signed width) :=
  followsAt_number (fun _ h => spread_eq h) bytes

end BitPlaces
end PackedMovie.Swf
