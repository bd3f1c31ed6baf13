import Mathlib.Data.List.Perm.Subperm
import PackedMovie.Proofs.Swf.Contents
import PackedMovie.Proofs.Swf.TagData

/-!
# The count of the symbols

The table of all symbols begins with their count, in a word of 16 bits, and is read up to that count.
There are 65536 characters. If all of them have symbols, then the count that is written is zero, and
of the table nothing is read.

Main statement: `Assembly.read_linked`.
-/
namespace PackedMovie.Swf.Assembly

/-- Steps that link characters to names, and nothing else. -/
def linking (links : List (UInt16 × String)) : List Step :=
  links.map fun link => .symbol link.1 link.2

/-- The last link of the character gives it this name. -/
def IsLastLink (links : List (UInt16 × String)) (id : UInt16) (name : String) : Prop :=
  ∃ before after, links = before ++ (id, name) :: after ∧ ∀ link ∈ after, link.1 ≠ id

/-! ### Assemblies without other tags -/

/-- The tags behind those that were added, but for the last one, with what they are read as. -/
def closingItems (a : Assembly) : List (RawTag × Tag) :=
  a.symbolTags.map (fun raw =>
    (raw, .symbols (a.symbols.entries.take (a.symbols.size % 65536)))) ++
    [(⟨showFrameCode, []⟩, .other showFrameCode 0)]

theorem isRead_closingItems {a : Assembly} (hnames : ∀ link ∈ a.symbols.entries, NulFree link.2)
    (htable : (table a.symbols).length < UInt32.size) :
    ∀ item ∈ a.closingItems, Tag.IsRead item.1 item.2 := by
  intro item hitem
  rcases List.mem_append.1 hitem with hitem | hitem
  · obtain ⟨raw, hraw, rfl⟩ := List.mem_map.1 hitem
    unfold symbolTags at hraw
    split at hraw
    · exact absurd hraw List.not_mem_nil
    · have hcode : symbolClassCode.toNat < 1024 := by decide
      rw [List.mem_singleton.1 hraw]
      exact ⟨⟨hcode, htable⟩, ofRaw_table hnames, by simp⟩
  · rw [List.mem_singleton.1 hitem]
    exact ⟨⟨by decide, by decide⟩, rfl, by decide⟩

theorem allTags_of_tags_nil {a : Assembly} (h : a.tags = []) :
    a.allTags = a.closingItems.map Prod.fst ++ [⟨endCode, []⟩] := by
  rw [allTags, h, closingItems, List.map_append, List.map_map]
  simp [Function.comp_def]

theorem links_closingItems (a : Assembly) :
    (a.closingItems.map Prod.snd ++ [Tag.endOfTags]).flatMap Tag.links =
      a.symbols.entries.take (a.symbols.size % 65536) := by
  unfold closingItems symbolTags
  split
  · rename_i hempty
    rw [List.isEmpty_iff.1 hempty]
    simp [Tag.links]
  · simp [Tag.links]

/-- What is read of an assembly that no tags were added to. -/
theorem exists_read [Codec] {a : Assembly} (hscheme : a.compression ≠ .lzma)
    (htags : a.tags = []) (hnames : ∀ link ∈ a.symbols.entries, NulFree link.2)
    (htable : (table a.symbols).length < UInt32.size) :
    ∃ file movie, a.write = .ok file ∧ Movie.read file = .ok movie ∧
      movie.symbols = .ofList (a.symbols.entries.take (a.symbols.size % 65536)) := by
  have hread := Tag.readAll_append (isRead_closingItems hnames htable) 0
    (RawTag.write ⟨endCode, []⟩)
  have hend := Tag.readAll_end
    (0 + ((a.closingItems.map Prod.fst).flatMap RawTag.write).length) []
  rw [List.append_nil] at hend
  rw [hend] at hread
  obtain ⟨file, hwrite, hheader⟩ :=
    Header.write_read (h := a.header) hscheme (a.allTags.flatMap RawTag.write)
  refine ⟨file, .ofTags (a.header.kept (a.allTags.flatMap RawTag.write))
    (a.closingItems.map Prod.snd ++ [.endOfTags]), hwrite, ?_, ?_⟩
  · rw [Movie.read_of_header hheader]
    nth_rewrite 2 [allTags_of_tags_nil htags]
    rw [List.flatMap_append, List.flatMap_singleton, Cursor.ofBytes, hread]
    rfl
  · rw [Movie.ofTags, links_closingItems]

/-! ### Symbols alone -/

theorem foldl_run_linking (links : List (UInt16 × String)) (a : Assembly) :
    (linking links).foldl run a = { a with symbols := a.symbols.insertAll links } := by
  induction links generalizing a with
  | nil => rfl
  | cons link links ih => exact ih _

theorem ofSteps_linking (links : List (UInt16 × String)) :
    ofSteps (linking links) = { empty with symbols := .ofList links } :=
  foldl_run_linking links empty

theorem size_ofList_le_characters (links : List (UInt16 × String)) :
    (Dictionary.ofList links).size ≤ 65536 := by
  rw [Dictionary.size_ofList]
  have hnodup : (((links.map Prod.fst).dedup).map UInt16.toNat).Nodup :=
    (List.nodup_dedup _).map fun _ _ => UInt16.toNat_inj.1
  have hsubset : ((links.map Prod.fst).dedup).map UInt16.toNat ⊆ List.range 65536 := by
    intro n hn
    obtain ⟨id, -, rfl⟩ := List.mem_map.1 hn
    exact List.mem_range.2 id.toNat_lt
  have hlength := (hnodup.subperm hsubset).length_le
  rwa [List.length_map, List.length_range] at hlength

theorem exists_read_linking [Codec] {links : List (UInt16 × String)}
    (hnames : ∀ link ∈ links, NulFree link.2)
    (htable : (table (.ofList links)).length < UInt32.size) :
    ∃ file movie, (ofSteps (linking links)).write = .ok file ∧ Movie.read file = .ok movie ∧
      movie.symbols =
        if (links.map Prod.fst).dedup.length ≤ 65535 then .ofList links else .empty := by
  have hentries : ∀ link ∈ (Dictionary.ofList links).entries, NulFree link.2 := by
    intro link hlink
    rcases Dictionary.mem_entries_insertAll hlink with hmem | hmem
    · exact hnames link hmem
    · exact absurd hmem List.not_mem_nil
  have hscheme : Compression.none ≠ .lzma := by decide
  have hread := exists_read (a := { empty with symbols := .ofList links }) hscheme rfl hentries
    htable
  rw [← ofSteps_linking] at hread
  obtain ⟨file, movie, hwrite, hmovie, hsymbols⟩ := hread
  refine ⟨file, movie, hwrite, hmovie, hsymbols.trans ?_⟩
  rw [ofSteps_linking, ← Dictionary.size_ofList]
  have hsize := size_ofList_le_characters links
  simp only
  split
  · rename_i hfits
    have hwhole : (Dictionary.ofList links).entries.take (Dictionary.ofList links).size =
        (Dictionary.ofList links).entries := List.take_length
    rw [Nat.mod_eq_of_lt (Nat.lt_succ_of_le hfits), hwhole, Dictionary.ofList_entries]
  · rename_i hall
    have hwhole : (Dictionary.ofList links).size = 65536 := by omega
    rw [hwhole]
    rfl

/-- If there is a character without a symbol, then all symbols are read back, each with the last of
its names. If every character has one, then no symbol is. -/
theorem read_linked [Codec] {links : List (UInt16 × String)}
    (hnames : ∀ link ∈ links, NulFree link.2) (htable : (table (.ofList links)).length < UInt32.size) :
    ∃ file movie, (ofSteps (linking links)).write = .ok file ∧ Movie.read file = .ok movie ∧
      if (links.map Prod.fst).dedup.length ≤ 65535 then
        ∀ id name, movie.symbols.get? id = some name ↔ IsLastLink links id name
      else movie.symbols = .empty := by
  obtain ⟨file, movie, hwrite, hmovie, hsymbols⟩ := exists_read_linking hnames htable
  refine ⟨file, movie, hwrite, hmovie, ?_⟩
  split at hsymbols
  · rename_i hfits
    rw [if_pos hfits, hsymbols]
    exact fun id name => Dictionary.get?_ofList_eq_some_iff
  · rename_i hall
    rw [if_neg hall]
    exact hsymbols

/-- A character is linked twice. -/
def relinked : List (UInt16 × String) := [(7, "first"), (2, ""), (65535, "größe"), (7, "last")]

theorem read_linked_relinked :
    ((∀ link ∈ relinked, NulFree link.2) ∧
      (table (.ofList relinked)).length < UInt32.size) ∧
      ∃ file movie, (ofSteps (linking relinked)).write = .ok file ∧ Movie.read file = .ok movie ∧
        movie.symbols.get? 7 = some "last" ∧ movie.symbols.get? 3 = none := by
  have hnames : ∀ link ∈ relinked, NulFree link.2 := by decide +kernel
  have htable : (table (.ofList relinked)).length < UInt32.size := by decide +kernel
  obtain ⟨file, movie, hwrite, hmovie, hsymbols⟩ := read_linked hnames htable
  rw [if_pos (by decide +kernel)] at hsymbols
  refine ⟨⟨hnames, htable⟩, file, movie, hwrite, hmovie, ?_, ?_⟩
  · exact (hsymbols 7 "last").2 ⟨relinked.take 3, [], rfl, by simp⟩
  · rw [Option.eq_none_iff_forall_ne_some]
    rintro name hname
    obtain ⟨before, after, hsplit, -⟩ := (hsymbols 3 name).1 hname
    have hmem : (3, name) ∈ relinked := by
      rw [hsplit]
      exact List.mem_append_right before List.mem_cons_self
    simp [relinked] at hmem

/-- Every character, from the last one down to zero, with an empty name. -/
def everyCharacter : List (UInt16 × String) :=
  (List.range 65536).map fun n => (UInt16.ofNat (65535 - n), "")

theorem length_dedup_everyCharacter : (everyCharacter.map Prod.fst).dedup.length = 65536 := by
  have hkeys : everyCharacter.map Prod.fst =
      (List.range 65536).map fun n => UInt16.ofNat (65535 - n) := by
    rw [everyCharacter, List.map_map]
    rfl
  have hvalue (n : Nat) : (UInt16.ofNat (65535 - n)).toNat = 65535 - n :=
    UInt16.toNat_ofNat_of_lt' (Nat.lt_succ_of_le (Nat.sub_le 65535 n))
  have hnodup : ((List.range 65536).map fun n => UInt16.ofNat (65535 - n)).Nodup := by
    refine List.nodup_range.map_on fun m hm n hn hsame => ?_
    have hdown := congrArg UInt16.toNat hsame
    rw [hvalue, hvalue] at hdown
    rw [List.mem_range] at hm hn
    omega
  rw [hkeys, hnodup.dedup, List.length_map, List.length_range]

theorem nameless_everyCharacter : ∀ link ∈ everyCharacter, link.2 = "" := by
  intro link hlink
  obtain ⟨n, -, rfl⟩ := List.mem_map.1 hlink
  rfl

theorem length_table_everyCharacter : (table (.ofList everyCharacter)).length = 196610 := by
  have hlinks : ∀ link ∈ (Dictionary.ofList everyCharacter).entries,
      (writeLink link).length = 3 := by
    intro link hlink
    rcases Dictionary.mem_entries_insertAll hlink with hmem | hmem
    · rw [writeLink, nameless_everyCharacter link hmem]
      rfl
    · exact absurd hmem List.not_mem_nil
  have hsize : (Dictionary.ofList everyCharacter).entries.length = 65536 :=
    (Dictionary.size_ofList everyCharacter).trans length_dedup_everyCharacter
  rw [table, List.length_append, LittleEndian.length_encode, List.length_flatMap,
    List.map_congr_left hlinks, List.map_const', hsize, List.sum_replicate_nat]

/-- Every character was given a name, and no character has one in the movie. -/
theorem symbols_lost_everyCharacter :
    ((∀ link ∈ everyCharacter, NulFree link.2) ∧
      (table (.ofList everyCharacter)).length < UInt32.size) ∧
      ∃ file movie, (ofSteps (linking everyCharacter)).write = .ok file ∧
        Movie.read file = .ok movie ∧ movie.symbols = .empty ∧
        IsLastLink everyCharacter 0 "" := by
  have hnames : ∀ link ∈ everyCharacter, NulFree link.2 := by
    intro link hlink
    rw [nameless_everyCharacter link hlink]
    decide
  have htable : (table (.ofList everyCharacter)).length < UInt32.size := by
    rw [length_table_everyCharacter]
    decide
  obtain ⟨file, movie, hwrite, hmovie, hsymbols⟩ := exists_read_linking hnames htable
  rw [length_dedup_everyCharacter] at hsymbols
  refine ⟨⟨hnames, htable⟩, file, movie, hwrite, hmovie, hsymbols.trans (if_neg (by decide)), ?_⟩
  have hlast : List.range 65536 = List.range 65535 ++ [65535] := List.range_succ
  refine ⟨(List.range 65535).map fun n => (UInt16.ofNat (65535 - n), ""), [], ?_, by simp⟩
  rw [everyCharacter, hlast, List.map_append]
  rfl

end PackedMovie.Swf.Assembly
