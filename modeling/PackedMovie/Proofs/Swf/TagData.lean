import PackedMovie.Proofs.Dictionary
import PackedMovie.Proofs.Swf.Split
import PackedMovie.Proofs.Swf.Tags
import PackedMovie.Zlib.Codec

/-!
# Tag data that goes on

Tags are read one after another and none knows of the others, so a movie whose tag data are two
parts is made of what the parts say. Only the tag that ends all tags keeps what follows it from being
read.

Main statement: `Movie.read_appended`.
-/
namespace PackedMovie.Swf

open PackedMovie.Reader (Local)

/-! ### One tag -/

theorem RawTag.local_read : Local RawTag.read := by
  refine Local.u16.bind fun header => ?_
  have hlength : Local (readLength header) := by
    unfold readLength
    split
    · exact Local.u32.map _
    · exact Local.pure _
  exact hlength.bind fun length => (Local.bytes length).bind fun _ => Local.pure _

namespace Tag

theorem local_read : Local Tag.read := by
  refine RawTag.local_read.bind fun raw => ?_
  split
  · exact Local.pure _
  · exact Local.throw _

/-! ### All tags -/

theorem readAll_of_error {c d : Cursor} {e : Error} (hmore : c.isAtEnd = false)
    (h : Tag.read c = .error e d) : readAll c = .error e := by
  rw [readAll, hmore]
  split
  · rename_i hend
    cases hend
  · split
    · rename_i herror
      rw [h] at herror
      cases herror
      rfl
    · rename_i hok
      rw [h] at hok
      cases hok

theorem readAll_of_atEnd {c : Cursor} (hend : c.isAtEnd = true) : readAll c = .ok [] := by
  rw [readAll, if_pos hend]

/-- Where the tags begin does not matter. -/
theorem readAll_elsewhere (c : Cursor) (offset : Nat) : readAll ⟨offset, c.rest⟩ = readAll c := by
  fun_induction readAll c generalizing offset with
  | case1 c hend => exact readAll_of_atEnd hend
  | case2 c hend e d hread =>
    obtain ⟨d', hread'⟩ := local_read.error_elsewhere hread offset
    exact readAll_of_error (Bool.eq_false_iff.2 hend) hread'
  | case3 c hend d hread =>
    have hmore : Cursor.isAtEnd ⟨offset, c.rest⟩ = false := Bool.eq_false_iff.2 hend
    obtain ⟨offset', hread'⟩ := local_read.ok_elsewhere hread offset
    rw [readAll_of_read hmore hread', if_pos rfl]
  | case4 c hend tag d hread hgoes ih =>
    have hmore : Cursor.isAtEnd ⟨offset, c.rest⟩ = false := Bool.eq_false_iff.2 hend
    obtain ⟨offset', hread'⟩ := local_read.ok_elsewhere hread offset
    rw [readAll_of_read hmore hread', if_neg hgoes, ih offset']

theorem isAtEnd_append {c : Cursor} (h : ¬ c.isAtEnd = true) (more : Bytes) :
    Cursor.isAtEnd ⟨c.offset, c.rest ++ more⟩ = false := by
  simp only [Cursor.isAtEnd, List.isEmpty_iff] at h ⊢
  simp [h]

/-- Behind tags that were read without an end among them the rest is read as if it stood alone;
behind an end it is not read. -/
theorem readAll_more {c : Cursor} {tags : List Tag} (h : readAll c = .ok tags) (more : Bytes) :
    readAll ⟨c.offset, c.rest ++ more⟩ =
      if .endOfTags ∈ tags then .ok tags else (tags ++ ·) <$> readAll (.ofBytes more) := by
  fun_induction readAll c generalizing tags with
  | case1 c hend =>
    cases h
    rw [if_neg List.not_mem_nil, List.isEmpty_iff.1 hend, List.nil_append, Cursor.ofBytes,
      readAll_elsewhere ⟨0, more⟩ c.offset]
    exact (id_map _).symm
  | case2 c hend e d hread => cases h
  | case3 c hend d hread =>
    cases h
    rw [readAll_of_read (isAtEnd_append hend more) (local_read.append hread more), if_pos rfl,
      if_pos List.mem_cons_self]
  | case4 c hend tag d hread hgoes ih =>
    cases hrest : readAll d with
    | error e =>
      rw [hrest] at h
      cases h
    | ok rest =>
      rw [hrest] at h
      cases h
      rw [readAll_of_read (isAtEnd_append hend more) (local_read.append hread more), if_neg hgoes,
        ih hrest]
      by_cases hends : .endOfTags ∈ rest
      · rw [if_pos hends, if_pos (List.mem_cons_of_mem tag hends)]
        rfl
      · have hnone : Tag.endOfTags ∉ tag :: rest := by
          simp [hends, Ne.symm hgoes]
        rw [if_neg hends, if_neg hnone]
        cases readAll (.ofBytes more) <;> rfl

end Tag

/-! ### Movies -/

namespace Movie

theorem read_of_header [Codec] {file data : Bytes} {header : Header}
    (h : Header.read file = .ok (header, data)) :
    Movie.read file = ofTags header <$> Tag.readAll (.ofBytes data) := by
  unfold Movie.read
  rw [h]
  rfl

theorem read_eq_ok_iff [Codec] {file : Bytes} {movie : Movie} :
    Movie.read file = .ok movie ↔ ∃ header data tags, Header.read file = .ok (header, data) ∧
      Tag.readAll (.ofBytes data) = .ok tags ∧ movie = ofTags header tags := by
  constructor
  · intro h
    cases hheader : Header.read file with
    | error e =>
      unfold Movie.read at h
      rw [hheader] at h
      cases h
    | ok parts =>
      obtain ⟨header, data⟩ := parts
      rw [read_of_header hheader] at h
      cases htags : Tag.readAll (.ofBytes data) with
      | error e =>
        rw [htags] at h
        cases h
      | ok tags =>
        rw [htags] at h
        cases h
        exact ⟨header, data, tags, rfl, htags, rfl⟩
  · rintro ⟨header, data, tags, hheader, htags, rfl⟩
    rw [read_of_header hheader, htags]
    rfl

/-- Some tag data are read, and a tag among them ends the tags. -/
def MeetsEnd (data : Bytes) : Prop :=
  ∃ tags, Tag.readAll (.ofBytes data) = .ok tags ∧ .endOfTags ∈ tags

theorem meetsEnd_iff {data : Bytes} {tags : List Tag}
    (h : Tag.readAll (.ofBytes data) = .ok tags) : MeetsEnd data ↔ .endOfTags ∈ tags := by
  constructor
  · rintro ⟨others, hothers, hmem⟩
    rw [h] at hothers
    cases hothers
    exact hmem
  · exact fun hmem => ⟨tags, h, hmem⟩

/-- A movie made of two with one header: blocks and binaries come one after another, and of two
symbols for one character the second one's counts. -/
structure IsJoin (first second both : Movie) : Prop where
  header : both.header = first.header
  abcBlocks : both.abcBlocks = first.abcBlocks ++ second.abcBlocks
  binaryData : both.binaryData = first.binaryData ++ second.binaryData
  symbols : ∀ id, both.symbols.get? id = (second.symbols.get? id).or (first.symbols.get? id)
  tagCount : both.tagCount = first.tagCount + second.tagCount

theorem isJoin_ofTags (header : Header) (front back : List Tag) :
    IsJoin (ofTags header front) (ofTags header back) (ofTags header (front ++ back)) where
  header := rfl
  abcBlocks := List.filterMap_append
  binaryData := List.filterMap_append
  symbols id := by
    simp only [ofTags, List.flatMap_append]
    exact Dictionary.get?_ofList_append id _ _
  tagCount := List.length_append

/-- What was read as a header can stand before any tags; in an uncompressed file it is a front. -/
theorem exists_file [Codec] {file data : Bytes} {header : Header}
    (h : Header.read file = .ok (header, data)) :
    (∀ tags, ∃ other, Header.read other = .ok (header, tags)) ∧
      (header.compression = .none → ∃ front, file = front ++ data ∧
        ∀ tags, Header.read (front ++ tags) = .ok (header, tags)) := by
  obtain ⟨front, frames, packed, hfile, hexpand, hread⟩ := Header.read_split h
  constructor
  · intro tags
    -- A body that expands is not of the one scheme that cannot be written.
    have hscheme : header.compression ≠ .lzma := by
      intro hlzma
      rw [hlzma] at hexpand
      cases hexpand
    obtain ⟨other, -, hother⟩ := Header.expand_compress hscheme (frames ++ tags)
    exact ⟨front ++ other, hread other tags hother⟩
  · intro hplain
    rw [hplain] at hexpand hread
    cases hexpand
    refine ⟨front ++ frames, by rw [hfile, List.append_assoc], fun tags => ?_⟩
    rw [List.append_assoc]
    exact hread _ tags rfl

/-- With a header that is read, every tag data make a file, and an uncompressed one begins with the
header. If some data are read, then with more behind them they are read as the join of both, or the
fault in what is behind them is met; but if a tag among them ends the tags, nothing behind them
counts. -/
theorem read_appended [Codec] {file data : Bytes} {header : Header}
    (h : Header.read file = .ok (header, data)) :
    ((∀ tags, ∃ other, Header.read other = .ok (header, tags)) ∧
      (header.compression = .none → ∃ front, file = front ++ data ∧
        ∀ tags, Header.read (front ++ tags) = .ok (header, tags))) ∧
    ∀ x y fileX fileY fileXY, Header.read fileX = .ok (header, x) →
      Header.read fileY = .ok (header, y) → Header.read fileXY = .ok (header, x ++ y) →
      ∀ first, Movie.read fileX = .ok first →
        (¬ MeetsEnd x → match Movie.read fileY with
          | .error e => Movie.read fileXY = .error e
          | .ok second => ∃ both, Movie.read fileXY = .ok both ∧ IsJoin first second both) ∧
        (MeetsEnd x → Movie.read fileXY = .ok first) := by
  refine ⟨exists_file h, fun x y fileX fileY fileXY hx hy hxy first hfirst => ?_⟩
  rw [read_of_header hx] at hfirst
  rw [read_of_header hy, read_of_header hxy]
  cases htags : Tag.readAll (.ofBytes x) with
  | error e =>
    rw [htags] at hfirst
    cases hfirst
  | ok tags =>
    rw [htags] at hfirst
    cases hfirst
    have hmore : Tag.readAll (.ofBytes (x ++ y)) = _ := Tag.readAll_more htags y
    rw [hmore, meetsEnd_iff htags]
    constructor
    · intro hnone
      rw [if_neg hnone]
      cases Tag.readAll (.ofBytes y) with
      | error e => rfl
      | ok others => exact ⟨_, rfl, isJoin_ofTags header tags others⟩
    · intro hmem
      rw [if_pos hmem]
      rfl

/-- A header without a frame size. -/
def bare : Bytes := [0x46, 0x57, 0x53, 9, 0, 0, 0, 0, 0, 0, 30, 1, 0]

def bareHeader : Header := ⟨.none, 9, 0, ⟨0, 0, 0, 0⟩, 30 * 256, 1⟩

/-- A tag that links the character 5 to a name of one letter. -/
def linking (letter : UInt8) : Bytes := [0x06, 0x13, 1, 0, 5, 0, letter, 0]

/-- The tag that ends all tags, and half a tag. -/
def ending : Bytes := [0, 0] ++ [0x06]

theorem read_appended_relinked :
    Header.read bare = .ok (bareHeader, []) ∧
      (¬ MeetsEnd (linking 0x61) ∧
        ∃ both, Movie.read (bare ++ (linking 0x61 ++ linking 0x62)) = .ok both ∧
          both.symbols.get? 5 = some "b" ∧ both.tagCount = 2) ∧
      MeetsEnd ending ∧
        Movie.read (bare ++ (ending ++ linking 0x61)) = .ok (ofTags bareHeader [.endOfTags]) := by
  have hbare : Header.read bare = .ok (bareHeader, []) := by decide +kernel
  have ha : Tag.readAll (.ofBytes (linking 0x61)) = .ok [.symbols [(5, "a")]] := by decide +kernel
  have hb : Tag.readAll (.ofBytes (linking 0x62)) = .ok [.symbols [(5, "b")]] := by decide +kernel
  have hend : Tag.readAll (.ofBytes ending) = .ok [.endOfTags] := by decide +kernel
  have hgoes : ¬ MeetsEnd (linking 0x61) := by
    rw [meetsEnd_iff ha]
    decide
  have hends : MeetsEnd ending := (meetsEnd_iff hend).2 List.mem_cons_self
  obtain ⟨⟨-, hplain⟩, hjoin⟩ := read_appended hbare
  obtain ⟨front, hfront, hread⟩ := hplain rfl
  rw [List.append_nil] at hfront
  subst hfront
  have hfirst := read_of_header (hread (linking 0x61))
  have hsecond := read_of_header (hread (linking 0x62))
  have hending := read_of_header (hread ending)
  rw [ha] at hfirst
  rw [hb] at hsecond
  rw [hend] at hending
  have hboth := (hjoin _ _ _ _ _ (hread _) (hread (linking 0x62)) (hread _) _ hfirst).1 hgoes
  rw [hsecond] at hboth
  obtain ⟨both, hboth, hisJoin⟩ := hboth
  refine ⟨hbare, ⟨hgoes, both, hboth, ?_, hisJoin.tagCount⟩, hends, ?_⟩
  · rw [hisJoin.symbols]
    decide
  · exact (hjoin _ _ _ _ _ (hread _) (hread (linking 0x61)) (hread _) _ hending).2 hends

end Movie
end PackedMovie.Swf
