import PackedMovie.Proofs.Swf.Assembly

/-!
# Tags are kept apart

The bytes in front of a body say how long it is, and reading a tag takes just these and the body,
whatever its own reader makes of it. So neither the tag nor the error depends on what follows.

Main statement: `Tag.read_framed`.
-/
namespace PackedMovie

/-- The cursor behind the next `count` bytes. -/
def Cursor.skip (count : Nat) (c : Cursor) : Cursor := ⟨c.offset + count, c.rest.drop count⟩

@[simp] theorem Cursor.rest_skip (count : Nat) (c : Cursor) :
    (c.skip count).rest = c.rest.drop count := rfl

theorem Cursor.skip_skip (m n : Nat) (c : Cursor) : (c.skip m).skip n = c.skip (m + n) := by
  simp only [skip, Nat.add_assoc, List.drop_drop]

namespace Reader

variable {ε : Type} [EndOfBytes ε] {c d : Cursor}

theorem bytes_taken {count : Nat} {taken : Bytes}
    (h : (bytes count : Reader ε Bytes) c = .ok taken d) :
    count ≤ c.rest.length ∧ taken = c.rest.take count ∧ d = c.skip count := by
  obtain ⟨rfl, hrest, hoffset⟩ := bytes_eq_ok_iff.1 h
  rw [Cursor.skip, hrest, List.length_append, List.take_left, List.drop_left, ← hoffset]
  exact ⟨Nat.le_add_right _ _, rfl, rfl⟩

theorem word_taken {width n : Nat} (h : (word width : Reader ε Nat) c = .ok n d) :
    width ≤ c.rest.length ∧ n = LittleEndian.decode (c.rest.take width) ∧
      n < Nat.pow 256 width ∧ d = c.skip width := by
  obtain ⟨taken, hbytes, rfl⟩ := map_eq_ok_iff.1 h
  obtain ⟨hle, rfl, hd⟩ := bytes_taken hbytes
  have hlt := LittleEndian.decode_lt (c.rest.take width)
  rw [List.length_take_of_le hle] at hlt
  exact ⟨hle, rfl, hlt, hd⟩

end Reader

namespace Swf

open PackedMovie.Reader (u16 u32 bind_eq_ok_iff map_eq_ok_iff bytes_taken word_taken)

namespace RawTag

/-! ### What stands in front of a body -/

/-- The word that a tag begins with: its code, and six bits for the length. -/
def firstWord (bytes : Bytes) : Nat := LittleEndian.decode (bytes.take 2)

def headerSize (bytes : Bytes) : Nat := if firstWord bytes % 64 = 63 then 6 else 2

/-- The length 63 stands for the one in the next four bytes. -/
def declaredLength (bytes : Bytes) : Nat :=
  if firstWord bytes % 64 = 63 then LittleEndian.decode ((bytes.drop 2).take 4)
  else firstWord bytes % 64

/-- The tag that some bytes begin with. -/
def first (bytes : Bytes) : RawTag where
  code := UInt16.ofNat (firstWord bytes / 64)
  body := (bytes.drop (headerSize bytes)).take (declaredLength bytes)

theorem and_longLength_eq_iff (header : UInt16) :
    header &&& longLength = longLength ↔ header.toNat % 64 = 63 := by
  rw [← UInt16.toNat_inj, and_longLength]
  rfl

variable {c d : Cursor}

theorem readLength_taken {header : UInt16} {length : Nat}
    (h : readLength header c = .ok length d) :
    (header.toNat % 64 = 63 ∧ 4 ≤ c.rest.length ∧
        length = LittleEndian.decode (c.rest.take 4) ∧ d = c.skip 4) ∨
      header.toNat % 64 ≠ 63 ∧ length = header.toNat % 64 ∧ d = c := by
  unfold readLength at h
  split at h
  · rename_i hlong
    obtain ⟨word, hword, rfl⟩ := map_eq_ok_iff.1 h
    obtain ⟨n, hbytes, rfl⟩ := map_eq_ok_iff.1 hword
    obtain ⟨hle, hn, hlt, hd⟩ := word_taken hbytes
    refine .inl ⟨(and_longLength_eq_iff header).1 hlong, hle, ?_, hd⟩
    rw [UInt32.toNat_ofNat_of_lt' hlt, hn]
  · rename_i hshort
    cases h
    exact .inr ⟨fun h => hshort ((and_longLength_eq_iff header).2 h), and_longLength header, rfl⟩

theorem firstWord_taken {header : UInt16} (h : (u16 : Reader UInt16) c = .ok header d) :
    2 ≤ c.rest.length ∧ header.toNat = firstWord c.rest ∧ d = c.skip 2 := by
  obtain ⟨n, hword, rfl⟩ := map_eq_ok_iff.1 h
  obtain ⟨hle, hn, hlt, hd⟩ := word_taken hword
  refine ⟨hle, ?_, hd⟩
  rw [UInt16.toNat_ofNat_of_lt' hlt, hn, firstWord]

/-- A tag that is read is the first one, and the cursor stands behind it. -/
theorem read_taken {raw : RawTag} (h : RawTag.read c = .ok raw d) :
    headerSize c.rest + declaredLength c.rest ≤ c.rest.length ∧ raw = first c.rest ∧
      d = c.skip (headerSize c.rest + declaredLength c.rest) := by
  obtain ⟨header, e, hheader, h⟩ := bind_eq_ok_iff.1 h
  obtain ⟨htwo, hfirst, rfl⟩ := firstWord_taken hheader
  obtain ⟨length, e, hlength, h⟩ := bind_eq_ok_iff.1 h
  obtain ⟨body, f, hbody, h⟩ := bind_eq_ok_iff.1 h
  cases h
  obtain ⟨hle, rfl, rfl⟩ := bytes_taken hbody
  rw [shiftRight_six, hfirst]
  unfold first headerSize declaredLength
  rcases readLength_taken hlength with ⟨hlong, hfour, rfl, rfl⟩ | ⟨hshort, rfl, rfl⟩
  · rw [hfirst] at hlong
    simp only [Cursor.rest_skip, List.length_drop] at hfour hle
    rw [if_pos hlong, if_pos hlong, Cursor.skip_skip, Cursor.skip_skip]
    exact ⟨by omega, rfl, rfl⟩
  · rw [hfirst] at hshort hle ⊢
    simp only [Cursor.rest_skip, List.length_drop] at hle
    rw [if_neg hshort, if_neg hshort, Cursor.skip_skip]
    exact ⟨by omega, rfl, rfl⟩

/-- A header takes two bytes, or six in front of a body of 63 bytes or more. -/
theorem exists_header (raw : RawTag) : ∃ header, raw.write = header ++ raw.body ∧
    header.length = if raw.body.length < 63 then 2 else 6 := by
  have hlong : longLength.toNat = 63 := rfl
  unfold write
  rw [hlong]
  split
  · exact ⟨_, rfl, LittleEndian.length_encode 2 _⟩
  · refine ⟨_, rfl, ?_⟩
    rw [List.length_append, LittleEndian.length_encode, LittleEndian.length_encode]

end RawTag

/-! ### A tag and what follows -/

namespace Tag

open RawTag (headerSize declaredLength)

/-- An outcome that leaves a cursor behind, whether it is a tag or an error. -/
def leaving (d : Cursor) : Except Error Tag → EStateM.Result Error Cursor Tag
  | .ok tag => .ok tag d
  | .error e => .error e d

theorem read_write_append {raw : RawTag} (h : raw.IsWritable) (offset : Nat) (rest : Bytes) :
    Tag.read ⟨offset, raw.write ++ rest⟩ =
      leaving ⟨offset + raw.write.length, rest⟩ (ofRaw raw) := by
  unfold Tag.read
  rw [(RawTag.reads h).bind_eq]
  cases ofRaw raw with
  | ok tag => rfl
  | error e => rfl

theorem read_taken {c d : Cursor} {tag : Tag} (h : Tag.read c = .ok tag d) :
    headerSize c.rest + declaredLength c.rest ≤ c.rest.length ∧
      d = c.skip (headerSize c.rest + declaredLength c.rest) ∧
      ofRaw (RawTag.first c.rest) = .ok tag := by
  obtain ⟨raw, e, hraw, h⟩ := bind_eq_ok_iff.1 h
  obtain ⟨hle, rfl, rfl⟩ := RawTag.read_taken hraw
  cases hfirst : ofRaw (RawTag.first c.rest) with
  | ok found =>
    rw [hfirst] at h
    cases h
    exact ⟨hle, rfl, rfl⟩
  | error e =>
    rw [hfirst] at h
    cases h

/-- Reading a written tag ends in front of what follows it, with an outcome that does not depend on it.
Wherever a tag is read, the cursor moves by the header and the length that is declared there, and the
tag is what the bytes between say. -/
theorem read_framed :
    (∀ raw : RawTag, raw.IsWritable →
      ∃ outcome, (∀ offset rest, Tag.read ⟨offset, raw.write ++ rest⟩ =
          leaving ⟨offset + raw.write.length, rest⟩ outcome) ∧
        (raw.code ∉ [endCode, plainAbcCode, symbolClassCode, abcCode, binaryDataCode] →
          outcome = .ok (.other raw.code raw.body.length)) ∧
        ∃ header, raw.write = header ++ raw.body ∧
          header.length = if raw.body.length < 63 then 2 else 6) ∧
      ∀ c d tag, Tag.read c = .ok tag d →
        headerSize c.rest + declaredLength c.rest ≤ c.rest.length ∧
          d = c.skip (headerSize c.rest + declaredLength c.rest) ∧
          ofRaw (RawTag.first c.rest) = .ok tag := by
  constructor
  · intro raw hraw
    exact ⟨ofRaw raw, read_write_append hraw, Assembly.ofRaw_other raw.body, raw.exists_header⟩
  · intro c d tag
    exact read_taken

/-- One link in a body of 63 bytes, whose length cannot stand beside the code. -/
def padded : RawTag := ⟨symbolClassCode, [1, 0, 5, 0, 97, 0] ++ List.replicate 57 0xAA⟩

/-- The padding of a table is neither read nor left over. -/
theorem read_framed_padded :
    padded.IsWritable ∧ (∃ header, padded.write = header ++ padded.body ∧ header.length = 6) ∧
      (∀ offset rest, Tag.read ⟨offset, padded.write ++ rest⟩ =
        .ok (.symbols [(5, "a")]) ⟨offset + 69, rest⟩) ∧
      headerSize (padded.write ++ [64, 0]) + declaredLength (padded.write ++ [64, 0]) = 69 := by
  have hwritable : padded.IsWritable := ⟨by decide, by decide⟩
  have hlinks : ofRaw padded = .ok (.symbols [(5, "a")]) := by decide +kernel
  obtain ⟨hwritten, hread⟩ := read_framed
  obtain ⟨outcome, houtcome, -, header, hheader, hlength⟩ := hwritten padded hwritable
  have hone := houtcome 0 []
  rw [read_write_append hwritable, hlinks] at hone
  cases outcome with
  | error e => cases hone
  | ok tag =>
    cases hone
    obtain ⟨-, hcursor, -⟩ := hread _ _ _ (houtcome 0 [64, 0])
    have hsize : padded.write.length = 69 := by decide
    have hoffset := congrArg Cursor.offset hcursor
    simp only [Cursor.skip, Nat.zero_add, hsize] at hoffset
    exact ⟨hwritable, ⟨header, hheader, hlength⟩, houtcome, hoffset.symm⟩

end Tag
end Swf
end PackedMovie
