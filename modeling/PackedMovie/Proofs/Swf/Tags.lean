import PackedMovie.Proofs.Abc.RoundTrip
import PackedMovie.Swf.Movie

/-!
# Tags read back

A framed tag is taken off the front of a file as it was put there, and the bodies that are
understood say what was written into them.

Main statements: `RawTag.reads`, `Tag.readAll_append`.
-/
namespace PackedMovie.Swf

open PackedMovie.Reader (Reads)

namespace RawTag

/-- A code has ten bits, and a length 32. -/
structure IsWritable (t : RawTag) : Prop where
  code : t.code.toNat < 1024
  body : t.body.length < UInt32.size

/-! ### The word in front -/

theorem shiftRight_six (header : UInt16) : header >>> 6 = UInt16.ofNat (header.toNat / 64) := by
  have hlt : header.toNat / 64 < UInt16.size :=
    Nat.lt_of_le_of_lt (Nat.div_le_self _ _) header.toNat_lt
  apply UInt16.toNat_inj.1
  rw [UInt16.toNat_ofNat_of_lt' hlt, UInt16.toNat_shiftRight]
  exact Nat.shiftRight_eq_div_pow header.toNat 6

theorem and_longLength (header : UInt16) : (header &&& longLength).toNat = header.toNat % 64 := by
  have hmask : longLength.toNat = 2 ^ 6 - 1 := rfl
  rw [UInt16.toNat_and, hmask, Nat.and_two_pow_sub_one_eq_mod]

section Header

variable {code length : UInt16} (hcode : code.toNat < 1024) (hlength : length.toNat < 64)
include hcode hlength

theorem toNat_header : (code <<< 6 ||| length).toNat = code.toNat * 64 + length.toNat := by
  have hlow : length.toNat < 2 ^ 6 := hlength
  have hor := Nat.shiftLeft_add_eq_or_of_lt hlow code.toNat
  have hshift : (code <<< 6).toNat = code.toNat <<< 6 := by
    have hmul : code.toNat <<< 6 = code.toNat * 64 := Nat.shiftLeft_eq code.toNat 6
    rw [UInt16.toNat_shiftLeft]
    change code.toNat <<< 6 % 65536 = code.toNat <<< 6
    exact Nat.mod_eq_of_lt (by omega)
  rw [UInt16.toNat_or, hshift, ← hor, Nat.shiftLeft_eq]

theorem header_shiftRight : (code <<< 6 ||| length) >>> 6 = code := by
  have hquotient : (code.toNat * 64 + length.toNat) / 64 = code.toNat := by omega
  rw [shiftRight_six, toNat_header hcode hlength, hquotient, UInt16.ofNat_toNat]

theorem header_and : (code <<< 6 ||| length) &&& longLength = length := by
  apply UInt16.toNat_inj.1
  rw [and_longLength, toNat_header hcode hlength]
  omega

end Header

theorem reads {t : RawTag} (h : t.IsWritable) : Reads RawTag.read t.write t := by
  unfold write
  split
  · rename_i hshort
    have hlow : t.body.length < 63 := hshort
    have hlength : (UInt16.ofNat t.body.length).toNat = t.body.length :=
      UInt16.toNat_ofNat_of_lt' (Nat.lt_trans hlow (by decide))
    have hsmall : (UInt16.ofNat t.body.length).toNat < 64 := by omega
    have hne : UInt16.ofNat t.body.length ≠ longLength := by
      intro heq
      rw [heq] at hlength
      have hlong : longLength.toNat = 63 := rfl
      omega
    apply (Reads.u16 _).bind
    unfold readAfter readLength
    rw [header_and h.code hsmall, header_shiftRight h.code hsmall, if_neg hne, hlength]
    exact (Reads.bytes t.body).bind_pure
  · have hsmall : longLength.toNat < 64 := by decide
    rw [List.append_assoc]
    apply (Reads.u16 _).bind
    unfold readAfter readLength
    rw [header_and h.code hsmall, header_shiftRight h.code hsmall, if_pos rfl]
    apply ((Reads.u32 t.body.length).map UInt32.toNat).bind
    rw [UInt32.toNat_ofNat_of_lt' h.body]
    exact (Reads.bytes t.body).bind_pure

end RawTag

/-! ### Texts -/

/-- No character of the text is NUL. -/
def NulFree (text : String) : Prop := '\x00' ∉ text.toList

instance : DecidablePred NulFree := fun text =>
  inferInstanceAs (Decidable ('\x00' ∉ text.toList))

theorem reads_cstring {text : String} (h : NulFree text) :
    Reads cstring (writeCstring text) text := by
  intro offset rest
  have hbytes : ∀ b ∈ Utf8.encode text, (b != 0) = true := by
    intro b hb
    exact bne_iff_ne.2 (Utf8.ne_zero_of_mem_encode h hb)
  have htake : (writeCstring text ++ rest).takeWhile (· != 0) = Utf8.encode text := by
    rw [writeCstring, List.append_assoc, List.singleton_append,
      List.takeWhile_append_of_pos hbytes]
    simp
  have hdrop : (writeCstring text ++ rest).drop (Utf8.encode text).length = 0 :: rest := by
    rw [writeCstring, List.append_assoc, List.drop_left']
    · rfl
    · rfl
  unfold cstring
  simp only [htake]
  rw [hdrop]
  simp only
  rw [Utf8.decodeLossy_encode, writeCstring, List.length_append, List.length_singleton,
    Nat.add_assoc]

theorem reads_link {link : UInt16 × String} (h : NulFree link.2) :
    Reads Swf.link (LittleEndian.encode 2 link.1.toNat ++ writeCstring link.2) link :=
  (Reads.u16 link.1).bind (reads_cstring h).bind_pure

/-! ### Sequences of tags -/

namespace Tag

/-- A tag of the file and what it says, which is not that the tags end. -/
structure IsRead (raw : RawTag) (tag : Tag) : Prop where
  writable : raw.IsWritable
  ofRaw : Tag.ofRaw raw = .ok tag
  goes_on : tag ≠ .endOfTags

theorem reads {raw : RawTag} {tag : Tag} (hwritable : raw.IsWritable) (h : ofRaw raw = .ok tag) :
    Reads Tag.read raw.write tag := by
  intro offset rest
  unfold Tag.read
  rw [(RawTag.reads hwritable).bind_eq, h]
  rfl

theorem write_ne_nil (raw : RawTag) : raw.write ≠ [] := by
  unfold RawTag.write
  split <;> simp [LittleEndian.encode]

theorem readAll_of_read {c d : Cursor} {tag : Tag} (hmore : c.isAtEnd = false)
    (h : Tag.read c = .ok tag d) :
    readAll c = if tag = .endOfTags then .ok [tag] else (tag :: ·) <$> readAll d := by
  rw [readAll, hmore]
  split
  · rename_i hend
    cases hend
  · split
    · rename_i herror
      rw [h] at herror
      cases herror
    · rename_i hok
      rw [h] at hok
      cases hok
      rfl

theorem readAll_cons {raw : RawTag} {tag : Tag} (h : IsRead raw tag) (offset : Nat) (rest : Bytes) :
    readAll ⟨offset, raw.write ++ rest⟩ =
      (tag :: ·) <$> readAll ⟨offset + raw.write.length, rest⟩ := by
  have hmore : Cursor.isAtEnd ⟨offset, raw.write ++ rest⟩ = false := by
    simp [Cursor.isAtEnd, write_ne_nil]
  rw [readAll_of_read hmore (reads h.writable h.ofRaw offset rest), if_neg h.goes_on]

theorem readAll_append {items : List (RawTag × Tag)} (h : ∀ item ∈ items, IsRead item.1 item.2)
    (offset : Nat) (rest : Bytes) :
    readAll ⟨offset, (items.map Prod.fst).flatMap RawTag.write ++ rest⟩ =
      (items.map Prod.snd ++ ·) <$>
        readAll ⟨offset + ((items.map Prod.fst).flatMap RawTag.write).length, rest⟩ := by
  induction items generalizing offset with
  | nil =>
    change readAll ⟨offset, rest⟩ = id <$> readAll ⟨offset, rest⟩
    rw [id_map]
  | cons item items ih =>
    have hrest := ih (fun other hother => h other (List.mem_cons_of_mem item hother))
    rw [List.map_cons, List.flatMap_cons, List.append_assoc,
      readAll_cons (h item List.mem_cons_self), hrest, List.length_append, Nat.add_assoc,
      List.map_cons]
    simp [Functor.map_map]

/-- The tag that ends all. -/
theorem readAll_end (offset : Nat) (rest : Bytes) :
    readAll ⟨offset, RawTag.write ⟨endCode, []⟩ ++ rest⟩ = .ok [.endOfTags] := by
  have hwritable : RawTag.IsWritable ⟨endCode, []⟩ := ⟨by decide, by decide⟩
  rw [readAll_of_read rfl (reads hwritable rfl offset rest), if_pos rfl]

end Tag

end PackedMovie.Swf
