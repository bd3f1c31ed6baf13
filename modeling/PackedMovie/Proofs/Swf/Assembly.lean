import PackedMovie.Proofs.Dictionary
import PackedMovie.Proofs.Swf.Header
import PackedMovie.Proofs.Swf.Tags
import PackedMovie.Swf.Assembly

/-!
# Assembled movies read back

A movie that was put together step by step is read back with what the steps put into it, in whatever
order they came.

Main statement: `Assembly.write_read`.
-/
namespace PackedMovie.Swf

open PackedMovie.Reader (Reads)

namespace Assembly

/-! ### What a step adds -/

namespace Step

/-- The tag that a step adds, and what it is read back as. -/
def item? : Step → Option (RawTag × Tag)
  | .abc name program =>
    some (⟨abcCode, abcFlags ++ writeCstring name ++ program.write⟩,
      .abc { flags := 1, name, size := program.write.length, program })
  | .binaryData id data =>
    some (⟨binaryDataCode, LittleEndian.encode 2 id.toNat ++ reserved ++ data⟩, .binary ⟨id, data⟩)
  | .tag code body => some (⟨code, body⟩, .other code body.length)
  | _ => none

def link? : Step → Option (UInt16 × String)
  | .symbol id name => some (id, name)
  | _ => none

/-- What a movie file can hold. A tag given by its code is one that is not understood. -/
def WellFormed : Step → Prop
  | .abc name program => NulFree name ∧ program.WellFormed
  | .symbol _ name => NulFree name
  | .tag code _ => code.toNat < 1024 ∧
    code ∉ [endCode, plainAbcCode, symbolClassCode, abcCode, binaryDataCode]
  | _ => True

end Step

theorem run_tags (a : Assembly) (s : Step) :
    (a.run s).tags = a.tags ++ (s.item?.map Prod.fst).toList := by
  cases s <;> simp [run, Step.item?, addTag]

theorem foldl_run_tags (steps : List Step) (a : Assembly) :
    (steps.foldl run a).tags = a.tags ++ (steps.filterMap Step.item?).map Prod.fst := by
  induction steps generalizing a with
  | nil => exact (List.append_nil _).symm
  | cons s steps ih =>
    rw [List.foldl_cons, ih, run_tags, List.append_assoc, List.filterMap_cons]
    cases s.item? <;> rfl

theorem foldl_run_symbols (steps : List Step) (a : Assembly) :
    (steps.foldl run a).symbols = a.symbols.insertAll (steps.filterMap Step.link?) := by
  induction steps generalizing a with
  | nil => rfl
  | cons s steps ih =>
    rw [List.foldl_cons, ih]
    cases s <;> rfl

theorem compression_foldl_run {steps : List Step} (h : ∀ s ∈ steps, s ≠ .compression .lzma)
    {a : Assembly} (ha : a.compression ≠ .lzma) : (steps.foldl run a).compression ≠ .lzma := by
  induction steps generalizing a with
  | nil => exact ha
  | cons s steps ih =>
    rw [List.foldl_cons]
    apply ih fun other hother => h other (List.mem_cons_of_mem s hother)
    cases s with
    | compression scheme =>
      rintro rfl
      exact h _ List.mem_cons_self rfl
    | _ => exact ha

/-! ### What is read back -/

theorem blockOf_write {program : Abc.Program} (h : program.WellFormed) (flags : UInt32)
    (name : String) (offset : Nat) :
    blockOf flags name ⟨offset, program.write⟩ =
      .ok (.abc { flags, name, size := program.write.length, program })
        ⟨offset, program.write⟩ := by
  have hparse : Abc.Program.parse program.write = .ok program := by
    have hrun := (Abc.Program.reads h).runOn []
    rwa [List.append_nil] at hrun
  unfold blockOf
  rw [PackedMovie.Reader.get_bind_eq]
  simp only
  rw [hparse]
  rfl

theorem readBody_abc : Tag.readBody abcCode =
    PackedMovie.Reader.u32 >>= fun flags => cstring >>= fun name => blockOf flags name := rfl

theorem ofRaw_abc {name : String} {program : Abc.Program} (hname : NulFree name)
    (hprogram : program.WellFormed) :
    Tag.ofRaw ⟨abcCode, abcFlags ++ writeCstring name ++ program.write⟩ =
      .ok (.abc { flags := 1, name, size := program.write.length, program }) := by
  unfold Tag.ofRaw PackedMovie.Reader.runOn
  simp only [readBody_abc, Cursor.ofBytes, List.append_assoc, abcFlags]
  rw [(Reads.u32 1).bind_eq, (reads_cstring hname).bind_eq, blockOf_write hprogram]
  rfl

theorem readBody_binary : Tag.readBody binaryDataCode =
    PackedMovie.Reader.u16 >>= fun characterId => PackedMovie.Reader.u32 >>= fun _ =>
      get >>= fun c => pure (.binary ⟨characterId, c.rest⟩) := rfl

theorem ofRaw_binary (id : UInt16) (data : Bytes) :
    Tag.ofRaw ⟨binaryDataCode, LittleEndian.encode 2 id.toNat ++ reserved ++ data⟩ =
      .ok (.binary ⟨id, data⟩) := by
  have hreserved : Reads (PackedMovie.Reader.u32 : Reader UInt32) reserved 0 := Reads.u32 0
  unfold Tag.ofRaw PackedMovie.Reader.runOn
  simp only [readBody_binary, Cursor.ofBytes, List.append_assoc]
  rw [(Reads.u16 id).bind_eq, hreserved.bind_eq]
  rfl

theorem ofRaw_other {code : UInt16} (body : Bytes)
    (h : code ∉ [endCode, plainAbcCode, symbolClassCode, abcCode, binaryDataCode]) :
    Tag.ofRaw ⟨code, body⟩ = .ok (.other code body.length) := by
  simp only [List.mem_cons, List.not_mem_nil, or_false, not_or] at h
  obtain ⟨hend, hplain, hsymbols, habc, hbinary⟩ := h
  unfold Tag.ofRaw Tag.readBody PackedMovie.Reader.runOn
  rw [if_neg hend, if_neg habc, if_neg hplain, if_neg hsymbols, if_neg hbinary]
  rfl

theorem readBody_symbols : Tag.readBody symbolClassCode =
    PackedMovie.Reader.u16 >>= fun count =>
      PackedMovie.Reader.times count.toNat link >>= fun links => pure (.symbols links) := rfl

/-- The table of the symbols, as the body of its tag. -/
def table (symbols : Dictionary UInt16 String) : Bytes :=
  LittleEndian.encode 2 symbols.size ++ symbols.entries.flatMap writeLink

theorem reads_count (n : Nat) :
    Reads (PackedMovie.Reader.u16 : Reader UInt16) (LittleEndian.encode 2 n) (UInt16.ofNat n) := by
  have h := (Reads.word (ε := Error) 2 n).map UInt16.ofNat
  rwa [show UInt16.ofNat (n % Nat.pow 256 2) = UInt16.ofNat n from UInt16.ofNat_mod_size] at h

/-- As many symbols are read as the low 16 bits of their number say. -/
theorem ofRaw_table {symbols : Dictionary UInt16 String}
    (hnames : ∀ link ∈ symbols.entries, NulFree link.2) :
    Tag.ofRaw ⟨symbolClassCode, table symbols⟩ =
      .ok (.symbols (symbols.entries.take (symbols.size % 65536))) := by
  have hlength : (symbols.entries.take (symbols.size % 65536)).length =
      (UInt16.ofNat symbols.size).toNat := by
    rw [UInt16.toNat_ofNat']
    exact List.length_take_of_le (Nat.mod_le _ _)
  have hlinks : Reads (PackedMovie.Reader.times (UInt16.ofNat symbols.size).toNat link)
      ((symbols.entries.take (symbols.size % 65536)).flatMap writeLink)
      (symbols.entries.take (symbols.size % 65536)) := by
    rw [← hlength]
    exact Reads.times fun link hlink => reads_link (hnames link (List.mem_of_mem_take hlink))
  have hreads : Reads (Tag.readBody symbolClassCode)
      (LittleEndian.encode 2 symbols.size ++
        (symbols.entries.take (symbols.size % 65536)).flatMap writeLink)
      (.symbols (symbols.entries.take (symbols.size % 65536))) := by
    rw [readBody_symbols]
    exact (reads_count symbols.size).bind hlinks.bind_pure
  -- The rest of the table is not read, and nothing is said about it.
  have hrun := hreads.runOn ((symbols.entries.drop (symbols.size % 65536)).flatMap writeLink)
  rw [List.append_assoc, ← List.flatMap_append, List.take_append_drop] at hrun
  exact hrun

theorem ofRaw_symbols {symbols : Dictionary UInt16 String} (hsize : symbols.size < UInt16.size)
    (hnames : ∀ link ∈ symbols.entries, NulFree link.2) :
    Tag.ofRaw ⟨symbolClassCode,
      LittleEndian.encode 2 symbols.size ++ symbols.entries.flatMap writeLink⟩ =
      .ok (.symbols symbols.entries) := by
  have hread := ofRaw_table hnames
  have hwhole : symbols.entries.take symbols.size = symbols.entries := List.take_length
  rwa [Nat.mod_eq_of_lt hsize, hwhole] at hread

/-! ### Whole movies -/

theorem isRead_item {s : Step} (hs : s.WellFormed) {item : RawTag × Tag}
    (hitem : s.item? = some item)
    (hsize : item.1.body.length < UInt32.size) : Tag.IsRead item.1 item.2 := by
  cases s with
  | abc name program =>
    obtain ⟨hname, hprogram⟩ := hs
    cases hitem
    have hcode : abcCode.toNat < 1024 := by decide
    exact ⟨⟨hcode, hsize⟩, ofRaw_abc hname hprogram, by simp⟩
  | binaryData id data =>
    cases hitem
    have hcode : binaryDataCode.toNat < 1024 := by decide
    exact ⟨⟨hcode, hsize⟩, ofRaw_binary id data, by simp⟩
  | tag code body =>
    obtain ⟨hcode, hother⟩ := hs
    cases hitem
    exact ⟨⟨hcode, hsize⟩, ofRaw_other body hother, by simp⟩
  | _ => cases hitem

/-- The tag of the symbols with what it is read back as. -/
def symbolItems (a : Assembly) : List (RawTag × Tag) :=
  a.symbolTags.map fun raw => (raw, .symbols a.symbols.entries)

/-- All tags but the last, with what they are read back as. -/
def items (steps : List Step) : List (RawTag × Tag) :=
  steps.filterMap Step.item? ++ (ofSteps steps).symbolItems ++
    [(⟨showFrameCode, []⟩, .other showFrameCode 0)]

theorem allTags_eq (steps : List Step) :
    (ofSteps steps).allTags = (items steps).map Prod.fst ++ [⟨endCode, []⟩] := by
  have htags : (ofSteps steps).tags = (steps.filterMap Step.item?).map Prod.fst :=
    foldl_run_tags steps empty
  have hsymbols : (ofSteps steps).symbolItems.map Prod.fst = (ofSteps steps).symbolTags := by
    rw [symbolItems, List.map_map]
    exact List.map_id _
  rw [allTags, items, List.map_append, List.map_append, htags, hsymbols, List.append_assoc,
    List.append_assoc, List.append_assoc]
  rfl

theorem mem_allTags {steps : List Step} {s : Step} (hs : s ∈ steps) {item : RawTag × Tag}
    (hitem : s.item? = some item) : item.1 ∈ (ofSteps steps).allTags := by
  have hmem : item ∈ items steps := by
    rw [items, List.append_assoc]
    exact List.mem_append_left _ (List.mem_filterMap.2 ⟨s, hs, hitem⟩)
  rw [allTags_eq]
  exact List.mem_append_left _ (List.mem_map_of_mem hmem)

theorem nulFree_symbols {steps : List Step} (hsteps : ∀ s ∈ steps, s.WellFormed) :
    ∀ link ∈ (ofSteps steps).symbols.entries, NulFree link.2 := by
  intro link hlink
  rw [show (ofSteps steps).symbols = _ from foldl_run_symbols steps empty] at hlink
  rcases Dictionary.mem_entries_insertAll hlink with h | h
  · obtain ⟨s, hs, hlink⟩ := List.mem_filterMap.1 h
    cases s with
    | symbol id name =>
      cases hlink
      exact hsteps _ hs
    | _ => cases hlink
  · exact absurd h List.not_mem_nil

theorem isRead_items {steps : List Step} (hsteps : ∀ s ∈ steps, s.WellFormed)
    (hsymbols : (ofSteps steps).symbols.size < UInt16.size)
    (hsizes : ∀ raw ∈ (ofSteps steps).allTags, raw.body.length < UInt32.size) :
    ∀ item ∈ items steps, Tag.IsRead item.1 item.2 := by
  intro item hitem
  have hsize : item.1.body.length < UInt32.size := by
    apply hsizes
    rw [allTags_eq]
    exact List.mem_append_left _ (List.mem_map_of_mem hitem)
  rcases List.mem_append.1 hitem with hitem | hitem
  · rcases List.mem_append.1 hitem with hitem | hitem
    · obtain ⟨s, hs, hitem⟩ := List.mem_filterMap.1 hitem
      exact isRead_item (hsteps s hs) hitem hsize
    · obtain ⟨raw, hraw, rfl⟩ := List.mem_map.1 hitem
      unfold symbolTags at hraw
      split at hraw
      · exact absurd hraw List.not_mem_nil
      · rw [List.mem_singleton.1 hraw] at hsize ⊢
        have hcode : symbolClassCode.toNat < 1024 := by decide
        exact ⟨⟨hcode, hsize⟩, ofRaw_symbols hsymbols (nulFree_symbols hsteps), by simp⟩
  · rw [List.mem_singleton.1 hitem]
    exact ⟨⟨by decide, by decide⟩, rfl, by decide⟩

/-- What all tags are read back as. -/
def readTags (steps : List Step) : List Tag := (items steps).map Prod.snd ++ [.endOfTags]

theorem readAll_allTags {steps : List Step} (hsteps : ∀ s ∈ steps, s.WellFormed)
    (hsymbols : (ofSteps steps).symbols.size < UInt16.size)
    (hsizes : ∀ raw ∈ (ofSteps steps).allTags, raw.body.length < UInt32.size) :
    Tag.readAll (.ofBytes ((ofSteps steps).allTags.flatMap RawTag.write)) =
      .ok (readTags steps) := by
  have hitems := Tag.readAll_append (isRead_items hsteps hsymbols hsizes) 0
    (RawTag.write ⟨endCode, []⟩)
  have hend := Tag.readAll_end (0 + (((items steps).map Prod.fst).flatMap RawTag.write).length) []
  rw [List.append_nil] at hend
  rw [hend] at hitems
  rw [allTags_eq, List.flatMap_append, List.flatMap_singleton]
  exact hitems

/-! ### What the movie holds -/

namespace Step

def block? : Step → Option AbcBlock
  | .abc name program => some { flags := 1, name, size := program.write.length, program }
  | _ => none

def binary? : Step → Option BinaryData
  | .binaryData id data => some ⟨id, data⟩
  | _ => none

end Step

/-- The movie that steps put together. -/
def movie (steps : List Step) : Movie where
  header := (ofSteps steps).header.kept ((ofSteps steps).allTags.flatMap RawTag.write)
  abcBlocks := steps.filterMap Step.block?
  symbols := (ofSteps steps).symbols
  binaryData := steps.filterMap Step.binary?
  tagCount := (ofSteps steps).allTags.length

/-- A part of the movie that comes from the steps, tag by tag. -/
theorem filterMap_readTags {α : Type} {f : Tag → Option α} {g : Step → Option α}
    (hsteps : ∀ s : Step, s.item?.bind (f ∘ Prod.snd) = g s)
    (hsymbols : ∀ links, f (.symbols links) = none) (hother : f (.other showFrameCode 0) = none)
    (hend : f .endOfTags = none) (steps : List Step) :
    (readTags steps).filterMap f = steps.filterMap g := by
  have hitems : (ofSteps steps).symbolItems.filterMap (f ∘ Prod.snd) = [] := by
    rw [symbolItems, List.filterMap_map, List.filterMap_eq_nil_iff]
    intro raw _
    exact hsymbols _
  rw [readTags, List.filterMap_append, List.filterMap_map, items, List.filterMap_append,
    List.filterMap_append, List.filterMap_filterMap, hitems, funext hsteps]
  simp [hother, hend]

theorem links_item {s : Step} {item : RawTag × Tag} (h : s.item? = some item) :
    item.2.links = [] := by
  cases s <;> cases h <;> rfl

theorem links_readTags (steps : List Step) :
    (readTags steps).flatMap Tag.links = (ofSteps steps).symbols.entries := by
  have hsteps : ((steps.filterMap Step.item?).map Prod.snd).flatMap Tag.links = [] := by
    rw [List.flatMap_eq_nil_iff]
    intro tag htag
    obtain ⟨item, hitem, rfl⟩ := List.mem_map.1 htag
    obtain ⟨s, _, hs⟩ := List.mem_filterMap.1 hitem
    exact links_item hs
  have hsymbols : ((ofSteps steps).symbolItems.map Prod.snd).flatMap Tag.links =
      (ofSteps steps).symbols.entries := by
    unfold symbolItems symbolTags
    split
    · rename_i hempty
      exact (List.isEmpty_iff.1 hempty).symm
    · simp [Tag.links]
  rw [readTags, items, List.map_append, List.map_append, List.flatMap_append, List.flatMap_append,
    List.flatMap_append, hsteps, hsymbols]
  simp [Tag.links]

theorem ofTags_readTags (steps : List Step) :
    Movie.ofTags ((ofSteps steps).header.kept ((ofSteps steps).allTags.flatMap RawTag.write))
      (readTags steps) = movie steps := by
  have hblocks : (readTags steps).filterMap Tag.block? = steps.filterMap Step.block? :=
    filterMap_readTags (fun s => by cases s <;> rfl) (fun _ => rfl) rfl rfl steps
  have hbinaries : (readTags steps).filterMap Tag.binary? = steps.filterMap Step.binary? :=
    filterMap_readTags (fun s => by cases s <;> rfl) (fun _ => rfl) rfl rfl steps
  have hcount : (readTags steps).length = (ofSteps steps).allTags.length := by
    rw [allTags_eq, readTags, List.length_append, List.length_append, List.length_map,
      List.length_map]
    rfl
  rw [Movie.ofTags, movie, hblocks, hbinaries, hcount, links_readTags, Dictionary.ofList_entries]

/-- A file that has the header and the tags of an assembled movie holds what the steps put into it. -/
theorem read_of_header [Codec] {steps : List Step} (hsteps : ∀ s ∈ steps, s.WellFormed)
    (hsymbols : (ofSteps steps).symbols.size < UInt16.size)
    (hsizes : ∀ raw ∈ (ofSteps steps).allTags, raw.body.length < UInt32.size) {file : Bytes}
    (hfile : Header.read file =
      .ok ((ofSteps steps).header.kept ((ofSteps steps).allTags.flatMap RawTag.write),
        (ofSteps steps).allTags.flatMap RawTag.write)) :
    Movie.read file = .ok (movie steps) := by
  unfold Movie.read
  rw [hfile]
  change Movie.ofTags _ <$> Tag.readAll _ = _
  rw [readAll_allTags hsteps hsymbols hsizes, ← ofTags_readTags]
  rfl

/-- A movie that can be written is read back as what the steps put into it. -/
theorem write_read [Codec] {steps : List Step} (hscheme : (ofSteps steps).compression ≠ .lzma)
    (hsteps : ∀ s ∈ steps, s.WellFormed) (hsymbols : (ofSteps steps).symbols.size < UInt16.size)
    (hsizes : ∀ raw ∈ (ofSteps steps).allTags, raw.body.length < UInt32.size) :
    ∃ file, (ofSteps steps).write = .ok file ∧ Movie.read file = .ok (movie steps) := by
  obtain ⟨file, hwrite, hread⟩ := Header.write_read (h := (ofSteps steps).header) hscheme
    ((ofSteps steps).allTags.flatMap RawTag.write)
  exact ⟨file, hwrite, read_of_header hsteps hsymbols hsizes hread⟩

end Assembly

end PackedMovie.Swf
