import PackedMovie.Proofs.Abc.Accounting
import PackedMovie.Proofs.Text.Decoding

/-!
# Written programs are no longer than the bytes they were read from

A program takes at least the bytes of its written form, if all its strings are well-formed. A string
that is not is written with three bytes for each malformed part, so then the written form can be
longer. Whatever the strings are, their texts take no more than three bytes for each one read.

Main statement: `Program.length_write_le`.
-/
namespace PackedMovie.Abc

open PackedMovie.Reader (Takes Yields bind_eq_ok_iff runOn_eq_ok_iff)

/-! ### Strings as they are stored -/

/-- The bytes of a string, whatever they are. -/
def Reader.rawString : Reader Bytes := do
  let length ← Reader.u30
  PackedMovie.Reader.bytes length.toNat

theorem string_eq : Reader.string = Utf8.decodeLossy <$> Reader.rawString := by
  rw [Reader.string, Reader.rawString, map_eq_pure_bind, bind_assoc]

theorem times_map_eq {α β : Type} (f : α → β) (r : Reader α) (count : Nat) :
    PackedMovie.Reader.times count (f <$> r) = List.map f <$> PackedMovie.Reader.times count r := by
  induction count with
  | zero => rfl
  | succ count ih =>
    rw [PackedMovie.Reader.times, PackedMovie.Reader.times, ih]
    simp only [map_eq_pure_bind, bind_assoc, pure_bind, List.map_cons]

theorem storedOf_map_eq {α β : Type} (f : α → β) (r : Reader α) :
    storedOf (f <$> r) = List.map f <$> storedOf r := by
  rw [storedOf, storedOf, map_bind]
  simp only [times_map_eq]

namespace ConstantPool

/-- The bytes of the strings in the pool that begins here. -/
def rawStrings : Reader (List Bytes) := do
  let _ ← readTable 0 Reader.s32
  let _ ← readTable 0 Reader.u30
  let _ ← readTable 0 PackedMovie.Reader.u64
  storedOf Reader.rawString

end ConstantPool

/-- The bytes of the strings in the program that begins here. -/
def Program.rawStrings : Reader (List Bytes) := do
  let _ ← PackedMovie.Reader.u16
  let _ ← PackedMovie.Reader.u16
  ConstantPool.rawStrings

/-- The bytes of a string behind their number. -/
def writeRaw (raw : Bytes) : Bytes := Write.length raw.length ++ raw

theorem accounts_rawString : Accounts Reader.rawString writeRaw List.length := by
  refine takes_u30.bind fun length _ hlength => (Takes.bytes length.toNat).mono fun raw n hraw => ?_
  rw [writeRaw, length_of_count hraw.1, List.length_append]
  omega

theorem writeTable_texts {raws : List Bytes}
    (h : ∀ raw ∈ raws, ∃ text, Utf8.decode raw = .ok text) :
    writeTable Write.string ("" :: raws.map Utf8.decodeLossy) = writeTable writeRaw ([] :: raws) := by
  have hwrite : ∀ raw ∈ raws, Write.string (Utf8.decodeLossy raw) = writeRaw raw := by
    intro raw hraw
    obtain ⟨text, htext⟩ := h raw hraw
    rw [← Utf8.encode_of_decode htext, Utf8.decodeLossy_encode]
    rfl
  have hall : (raws.map Utf8.decodeLossy).flatMap Write.string = raws.flatMap writeRaw := by
    rw [List.flatMap_map, List.flatMap_congr hwrite]
  simp only [writeTable, List.length_cons, List.length_map, List.drop_one, List.tail_cons, hall]

theorem length_texts_le (raws : List Bytes) :
    ((raws.map Utf8.decodeLossy).flatMap Utf8.encode).length ≤ 3 * (raws.map List.length).sum := by
  induction raws with
  | nil => exact Nat.le_refl 0
  | cons raw rest ih =>
    have hraw := Utf8.length_encode_decodeLossy_le raw
    rw [List.map_cons, List.flatMap_cons, List.length_append, List.map_cons, List.sum_cons]
    omega

/-! ### Programs -/

/-- The bytes are enough for what is written of the program, if all its strings are well-formed, and
for its entries, and a third of its texts. -/
structure Suffice (raws : List Bytes) (written : Bytes) (entries : Nat) (texts : List String)
    (n : Nat) : Prop where
  written : (∀ raw ∈ raws, ∃ text, Utf8.decode raw = .ok text) → written.length ≤ n
  entries : entries ≤ n
  texts : (texts.flatMap Utf8.encode).length ≤ 3 * n

theorem ConstantPool.took_read {c d : Cursor} {p : ConstantPool}
    (h : ConstantPool.read c = .ok p d) :
    ∃ raws e, rawStrings c = .ok raws e ∧ p.strings = "" :: raws.map Utf8.decodeLossy ∧
      c.Took d (Suffice raws p.write p.entries p.strings) := by
  obtain ⟨ints, c₁, hints, h⟩ := bind_eq_ok_iff.1 h
  obtain ⟨uints, c₂, huints, h⟩ := bind_eq_ok_iff.1 h
  obtain ⟨doubles, c₃, hdoubles, h⟩ := bind_eq_ok_iff.1 h
  obtain ⟨strings, c₄, hstrings, h⟩ := bind_eq_ok_iff.1 h
  obtain ⟨namespaces, c₅, hspaces, h⟩ := bind_eq_ok_iff.1 h
  obtain ⟨sets, c₆, hsets, h⟩ := bind_eq_ok_iff.1 h
  obtain ⟨names, c₇, hnames, h⟩ := bind_eq_ok_iff.1 h
  cases h
  rw [readTable_eq, string_eq, storedOf_map_eq] at hstrings
  obtain ⟨texts, htexts, rfl⟩ := PackedMovie.Reader.map_eq_ok_iff.1 hstrings
  obtain ⟨raws, hraws, rfl⟩ := PackedMovie.Reader.map_eq_ok_iff.1 htexts
  refine ⟨raws, c₄, ?_, rfl, ?_⟩
  · exact bind_eq_ok_iff.2 ⟨ints, c₁, hints, bind_eq_ok_iff.2 ⟨uints, c₂, huints,
      bind_eq_ok_iff.2 ⟨doubles, c₃, hdoubles, hraws⟩⟩⟩
  · refine (accounts_s32.table 0 _ _ _ hints).trans fun _ hints => ?_
    refine (accounts_u30.table 0 _ _ _ huints).trans fun _ huints => ?_
    refine (accounts_d64.table 0 _ _ _ hdoubles).trans fun _ hdoubles => ?_
    refine (accounts_rawString.stored [] _ _ _ hraws).trans fun _ hraws => ?_
    refine (Namespace.accounts.table ⟨0, 0⟩ _ _ _ hspaces).trans fun _ hspaces => ?_
    refine (accounts_indices.table [] _ _ _ hsets).trans fun _ hsets => ?_
    refine (Multiname.accounts.table (.runtimeQNameLate false) _ _ _ hnames).mono fun _ hnames => ?_
    have hlength := length_texts_le raws
    have hentries : raws.length + (raws.map List.length).sum = entriesOf List.length raws := rfl
    simp only [entriesOf_noEntries] at hints huints hdoubles hspaces
    constructor
    case written =>
      intro hvalid
      simp only [write, writeTable_texts hvalid, List.length_append]
      omega
    case entries =>
      simp only [entries, List.drop_one, List.tail_cons, List.length_map] at *
      omega
    case texts =>
      rw [List.flatMap_cons, List.length_append, Utf8.encode_empty, List.length_nil]
      omega

namespace Program

theorem writeSignature_withoutBody (methods : List Method) :
    Write.counted Method.writeSignature (methods.map Method.withoutBody) =
      Write.counted Method.writeSignature methods := by
  rw [Write.counted, Write.counted, List.length_map, List.flatMap_map]
  rfl

theorem length_counted {α : Type} (write : α → Bytes) (members : List α) :
    (Write.counted write members).length =
      (Write.length members.length).length + (members.flatMap write).length := List.length_append

theorem length_write_length_le {n : Nat} {count : UInt32} (h : n ≤ count.toNat) :
    (Write.length n).length ≤ (Write.u30 count).length := by
  apply Base128.length_encode_mono
  rw [UInt32.toNat_ofNat']
  exact Nat.le_trans (Nat.mod_le _ _) h

theorem eq_ok_of_toOption {ε α : Type} {r : Except ε α} {a : α} (h : r.toOption = some a) :
    r = .ok a := by
  cases r with
  | error e => cases h
  | ok b => rw [Option.some.inj h]

theorem took_read {c d : Cursor} {p : Program} (h : Program.read c = .ok p d) :
    ∃ raws e, rawStrings c = .ok raws e ∧
      p.constants.strings = "" :: raws.map Utf8.decodeLossy ∧
      c.Took d (Suffice raws p.write p.entries p.constants.strings) := by
  obtain ⟨minorVersion, c₁, hminor, h⟩ := bind_eq_ok_iff.1 h
  obtain ⟨majorVersion, c₂, hmajor, h⟩ := bind_eq_ok_iff.1 h
  obtain ⟨constants, c₃, hconstants, h⟩ := bind_eq_ok_iff.1 h
  obtain ⟨signatures, c₄, hsignatures, h⟩ := bind_eq_ok_iff.1 h
  obtain ⟨metadata, c₅, hmetadata, h⟩ := bind_eq_ok_iff.1 h
  obtain ⟨classCount, c₆, hcount, h⟩ := bind_eq_ok_iff.1 h
  obtain ⟨instances, c₇, hinstances, h⟩ := bind_eq_ok_iff.1 h
  obtain ⟨classes, c₈, hclasses, h⟩ := bind_eq_ok_iff.1 h
  obtain ⟨scripts, c₉, hscripts, h⟩ := bind_eq_ok_iff.1 h
  obtain ⟨bodyCount, c₁₀, hbodyCount, h⟩ := bind_eq_ok_iff.1 h
  obtain ⟨methods, c₁₁, hmethods, h⟩ := bind_eq_ok_iff.1 h
  cases h
  obtain ⟨raws, e, hraws, htexts, hpool⟩ := ConstantPool.took_read hconstants
  have hbare : ∀ m ∈ signatures, m.body = none :=
    (yields_counted Method.yields_bare _ _ _ hsignatures).each
  refine ⟨raws, e, ?_, htexts, ?_⟩
  · exact bind_eq_ok_iff.2 ⟨minorVersion, c₁, hminor, bind_eq_ok_iff.2 ⟨majorVersion, c₂, hmajor,
      hraws⟩⟩
  · refine (Takes.u16 _ _ _ hminor).trans fun _ (hminor : _ = 2) => ?_
    refine (Takes.u16 _ _ _ hmajor).trans fun _ (hmajor : _ = 2) => hpool.trans fun _ hpool => ?_
    refine (Method.accounts_signature.counted _ _ _ hsignatures).trans fun _ hsignatures => ?_
    refine (Metadata.accounts.counted _ _ _ hmetadata).trans fun _ hmetadata => ?_
    refine (takes_u30 _ _ _ hcount).trans fun _ hcount => ?_
    refine (Instance.accounts.times _ _ _ _ hinstances).trans fun _ hinstances => ?_
    refine (Class.accounts.times _ _ _ _ hclasses).trans fun _ hclasses => ?_
    refine (Script.accounts.counted _ _ _ hscripts).trans fun _ hscripts => ?_
    refine (takes_u30 _ _ _ hbodyCount).trans fun _ hbodyCount => ?_
    refine (takes_bodies hbare _ _ _ _ hmethods).mono fun _ hmethods => ?_
    obtain ⟨hsame, hbodies, hrecords, hentries⟩ := hmethods
    constructor
    case written =>
      intro hvalid
      have hwritten := hpool.written hvalid
      have hlength := length_write_length_le hbodies
      have hinstances_length := length_counted Instance.write instances
      have hbodies_length := length_counted (fun record : UInt32 × Body => record.2.write record.1)
        (bodies 0 methods)
      rw [length_of_count hinstances.1] at hinstances_length
      rw [← hsame, writeSignature_withoutBody] at hsignatures
      simp only [write, Write.u16, LittleEndian.length_encode, List.length_append]
      omega
    case entries =>
      have hconstants := hpool.entries
      simp only [entries]
      omega
    case texts =>
      have htexts := hpool.texts
      dsimp only
      omega

/-- A program is written in no more bytes than were taken for it, if each string in these bytes is
well-formed. -/
theorem length_write_le {bytes : Bytes} {p : Program} (h : parse bytes = .ok p) :
    ∃ raws used rest, bytes = used ++ rest ∧
      Program.read (.ofBytes bytes) = .ok p ⟨used.length, rest⟩ ∧
      rawStrings.runOn bytes = .ok raws ∧
      p.constants.strings = "" :: raws.map Utf8.decodeLossy ∧
      ((∀ raw ∈ raws, ∃ text, Utf8.decode raw = .ok text) → p.write.length ≤ used.length) := by
  obtain ⟨d, hread⟩ := runOn_eq_ok_iff.1 h
  obtain ⟨raws, e, hraws, htexts, used, hrest, hplace, hsuffice⟩ := took_read hread
  refine ⟨raws, used, d.rest, hrest, ?_, ?_, htexts, hsuffice.written⟩
  · rw [hread, ← Nat.zero_add used.length]
    exact congrArg (EStateM.Result.ok p) (congrArg (Cursor.mk · d.rest) hplace)
  · exact runOn_eq_ok_iff.2 ⟨e, hraws⟩

/-- A file with more than it needs: counts are longer than they have to be, a table is said to have
one entry, a method has two bodies and a byte is left over. -/
def wastefulBytes : Bytes :=
  [0x10, 0x00, 0x2E, 0x00,
    0x81, 0x80, 0x00, 0x00, 0x00, 0x82, 0x00, 0x02, 0xC3, 0xA9, 0x00, 0x00, 0x00,
    0x01, 0x00, 0x00, 0x00, 0x00, 0x00, 0x00, 0x00,
    0x02, 0x00, 0x01, 0x01, 0x00, 0x01, 0x00, 0x00, 0x00, 0x80, 0x00, 0x02, 0x01, 0x00, 0x01, 0x01,
    0x47, 0x00, 0x00,
    0x7F]

def wasteful : Program :=
  { irregular with constants := { ConstantPool.empty with strings := ["", "é"] } }

theorem length_write_le_wasteful :
    parse wastefulBytes = .ok wasteful ∧ ∃ used, wastefulBytes = used ++ [0x7F] ∧
      wasteful.write.length ≤ used.length := by
  have h : parse wastefulBytes = .ok wasteful := eq_ok_of_toOption (by decide +kernel)
  have hraws : rawStrings.runOn wastefulBytes = .ok [[0xC3, 0xA9]] :=
    eq_ok_of_toOption (by decide +kernel)
  obtain ⟨raws, used, rest, hbytes, hread, hraws', -, hlength⟩ := length_write_le h
  cases hraws.symm.trans hraws'
  have hleft : (PackedMovie.Reader.cursorAfter (Program.read (.ofBytes wastefulBytes))).rest =
      [0x7F] := by decide +kernel
  rw [hread] at hleft
  refine ⟨h, used, hleft ▸ hbytes, hlength fun raw hraw => ?_⟩
  rw [List.mem_singleton.1 hraw]
  exact ⟨"é", eq_ok_of_toOption (by decide +kernel)⟩

end Program

end PackedMovie.Abc
