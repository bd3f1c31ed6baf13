import PackedMovie.Proofs.Abc.Assembly
import PackedMovie.Proofs.History
import PackedMovie.Proofs.Swf.Assembly
import PackedMovie.Zlib.Codec

/-!
# What an assembled movie holds

Each part of a movie that was put together and read back, said in terms of the steps: blocks and
binaries come in the order of their steps, and of a setting, or of the names of one character, the
last one counts.

Main statement: `Assembly.read_assembled`.
-/
namespace PackedMovie.Swf.Assembly

open PackedMovie.History (foldl_latest foldl_latest_getD)

/-! ### Parts of a step -/

namespace Step

def scheme? : Step → Option Compression
  | .compression scheme => some scheme
  | _ => none

def version? : Step → Option UInt8
  | .version number => some number
  | _ => none

/-- The name that a step gives to a character. -/
def nameOf? (id : UInt16) : Step → Option String
  | .symbol other name => if id = other then some name else none
  | _ => none

def addsTag : Step → Bool
  | .abc .. | .binaryData .. | .tag .. => true
  | _ => false

def addsSymbol : Step → Bool
  | .symbol .. => true
  | _ => false

theorem isSome_item? (s : Step) : s.item?.isSome = s.addsTag := by cases s <;> rfl

instance : DecidablePred WellFormed
  | .abc .. | .tag .. => inferInstanceAs (Decidable (_ ∧ _))
  | .symbol .. => inferInstanceAs (Decidable (NulFree _))
  | .compression _ | .version _ | .binaryData .. => inferInstanceAs (Decidable True)

end Step

/-! ### The state after all steps -/

theorem compression_ofSteps (steps : List Step) :
    (ofSteps steps).compression = (steps.reverse.findSome? Step.scheme?).getD .none :=
  foldl_latest_getD (f := Assembly.compression) (fun a s => by cases s <;> rfl) empty steps

theorem version_ofSteps (steps : List Step) :
    (ofSteps steps).version = (steps.reverse.findSome? Step.version?).getD 32 :=
  foldl_latest_getD (f := Assembly.version) (fun a s => by cases s <;> rfl) empty steps

theorem get?_symbols_ofSteps (steps : List Step) (id : UInt16) :
    (ofSteps steps).symbols.get? id = steps.reverse.findSome? (Step.nameOf? id) := by
  have hrun : ∀ (a : Assembly) (s : Step),
      (a.run s).symbols.get? id = (s.nameOf? id).or (a.symbols.get? id) := by
    intro a s
    cases s with
    | symbol other name =>
      rw [run, Dictionary.get?_insert, Step.nameOf?]
      split <;> rfl
    | _ => rfl
  have hlatest := foldl_latest (f := fun a : Assembly => a.symbols.get? id) hrun empty steps
  rwa [show empty.symbols.get? id = none from rfl, Option.or_none] at hlatest

theorem isEmpty_symbols_foldl (steps : List Step) (a : Assembly) :
    (steps.foldl run a).symbols.isEmpty = (a.symbols.isEmpty && !steps.any Step.addsSymbol) := by
  induction steps generalizing a with
  | nil => simp
  | cons s steps ih =>
    rw [List.foldl_cons, ih]
    cases s with
    | symbol id name => simp [run, Dictionary.isEmpty_insert, Step.addsSymbol]
    | _ => simp [run, addTag, Step.addsSymbol]

theorem isEmpty_symbols (steps : List Step) :
    (ofSteps steps).symbols.isEmpty = !steps.any Step.addsSymbol :=
  isEmpty_symbols_foldl steps empty

/-- Behind the tags that were added stand that of the symbols, if there are any, and two more. -/
theorem length_allTags (steps : List Step) :
    (ofSteps steps).allTags.length =
      steps.countP Step.addsTag + (if steps.any Step.addsSymbol then 1 else 0) + 2 := by
  have htags : (ofSteps steps).tags.length = steps.countP Step.addsTag := by
    have hrun : (ofSteps steps).tags = (steps.filterMap Step.item?).map Prod.fst :=
      foldl_run_tags steps empty
    rw [hrun, List.length_map, List.length_filterMap_eq_countP]
    simp only [Step.isSome_item?]
  have hsymbols : (ofSteps steps).symbolTags.length =
      if steps.any Step.addsSymbol then 1 else 0 := by
    rw [symbolTags, isEmpty_symbols]
    cases steps.any Step.addsSymbol <;> rfl
  rw [allTags, List.length_append, List.length_append, htags, hsymbols]
  rfl

theorem size_symbols_le (steps : List Step) :
    (ofSteps steps).symbols.size ≤ ((steps.filterMap Step.link?).map Prod.fst).dedup.length := by
  have hrun : (ofSteps steps).symbols = .ofList (steps.filterMap Step.link?) :=
    foldl_run_symbols steps empty
  rw [hrun]
  exact Nat.le_of_eq (Dictionary.size_ofList _)

/-! ### Bodies and files -/

/-- The body before compression. -/
def body (a : Assembly) : Bytes := a.header.body (a.allTags.flatMap RawTag.write)

theorem length_body_le {a : Assembly} {raw : RawTag} (h : raw ∈ a.allTags) :
    raw.body.length ≤ a.body.length := by
  have hwrite : raw.body.length ≤ raw.write.length := by
    unfold RawTag.write
    split <;> simp only [List.length_append] <;> omega
  have htags := Abc.Program.length_le_of_mem_flatMap (f := RawTag.write) h
  rw [body, Header.body, List.length_append]
  omega

/-- A file of an assembly. How its body is compressed is left open. -/
def IsFile [Codec] (a : Assembly) (file : Bytes) : Prop :=
  ∃ packed, Header.expand a.compression packed = .ok a.body ∧
    file = a.compression.signatureBytes ++ a.version ::
      LittleEndian.encode 4 (a.body.length + 8) ++ packed

theorem exists_write [Codec] {a : Assembly} (h : a.compression ≠ .lzma) :
    ∃ file, a.write = .ok file ∧ a.IsFile file :=
  Header.exists_isFile (h := a.header) h (a.allTags.flatMap RawTag.write)

/-- Blocks and binaries are read back in the order of their steps, the symbols with their last names,
and the header with the last settings, whatever compression the file has. -/
theorem read_assembled [Codec] {steps : List Step}
    (hschemes : ∀ s ∈ steps, s ≠ .compression .lzma) (hsteps : ∀ s ∈ steps, s.WellFormed)
    (hids : ((steps.filterMap Step.link?).map Prod.fst).dedup.length ≤ 65535)
    (hbody : (ofSteps steps).body.length < 4294967288) :
    ∃ file movie, (ofSteps steps).write = .ok file ∧ (ofSteps steps).IsFile file ∧
      (∀ other, (ofSteps steps).IsFile other → Movie.read other = .ok movie) ∧
      movie.abcBlocks = steps.filterMap Step.block? ∧
      movie.binaryData = steps.filterMap Step.binary? ∧
      (∀ id, movie.symbols.get? id = steps.reverse.findSome? (Step.nameOf? id)) ∧
      movie.tagCount =
        steps.countP Step.addsTag + (if steps.any Step.addsSymbol then 1 else 0) + 2 ∧
      movie.header.compression = (steps.reverse.findSome? Step.scheme?).getD .none ∧
      movie.header.version = (steps.reverse.findSome? Step.version?).getD 32 ∧
      movie.header.fileLength.toNat = 8 + (ofSteps steps).body.length := by
  have hscheme : (ofSteps steps).compression ≠ .lzma := compression_foldl_run hschemes (by decide)
  have hsymbols : (ofSteps steps).symbols.size < UInt16.size :=
    Nat.lt_of_le_of_lt (size_symbols_le steps) (Nat.lt_succ_of_le hids)
  have hsizes : ∀ raw ∈ (ofSteps steps).allTags, raw.body.length < UInt32.size := by
    intro raw hraw
    have hle := length_body_le hraw
    have hsize : UInt32.size = 4294967296 := rfl
    omega
  obtain ⟨file, hwrite, hfile⟩ := exists_write hscheme
  refine ⟨file, movie steps, hwrite, hfile, ?_, rfl, rfl, get?_symbols_ofSteps steps,
    length_allTags steps, compression_ofSteps steps, version_ofSteps steps, ?_⟩
  · rintro other ⟨packed, hexpand, rfl⟩
    exact read_of_header hsteps hsymbols hsizes (Header.read_file (ofSteps steps).header _ hexpand)
  · have hlength : (UInt32.ofNat ((ofSteps steps).body.length + 8)).toNat =
        (ofSteps steps).body.length + 8 := by
      apply UInt32.toNat_ofNat_of_lt'
      have hsize : UInt32.size = 4294967296 := rfl
      omega
    rw [Nat.add_comm]
    exact hlength

/-- Settings, names and tags among one another: a character is named and given data twice, and one
tag is too long for the short form of its length. -/
def scattered : List Step :=
  [.symbol 7 "first", .version 9, .binaryData 7 [1], .compression .zlib, .tag 9 (List.replicate 64 0),
    .abc "größe" .embellished, .symbol 2 "", .binaryData 7 [2], .symbol 7 "last", .version 10]

theorem read_assembled_scattered :
    ((∀ s ∈ scattered, s ≠ .compression .lzma) ∧ (∀ s ∈ scattered, s.WellFormed) ∧
      ((scattered.filterMap Step.link?).map Prod.fst).dedup.length ≤ 65535 ∧
      (ofSteps scattered).body.length < 4294967288) ∧
      ∃ file movie, (ofSteps scattered).write = .ok file ∧ Movie.read file = .ok movie ∧
        movie.abcBlocks.map AbcBlock.program = [.embellished] ∧
        movie.binaryData = [⟨7, [1]⟩, ⟨7, [2]⟩] ∧ movie.symbols.get? 7 = some "last" ∧
        movie.tagCount = 7 ∧ movie.header.compression = .zlib ∧ movie.header.version = 10 := by
  have hschemes : ∀ s ∈ scattered, s ≠ .compression .lzma := by simp [scattered]
  have hsteps : ∀ s ∈ scattered, s.WellFormed := by decide +kernel
  have hids : ((scattered.filterMap Step.link?).map Prod.fst).dedup.length ≤ 65535 := by decide
  have hbody : (ofSteps scattered).body.length < 4294967288 := by decide +kernel
  obtain ⟨file, movie, hwrite, hfile, hread, hblocks, hbinaries, hsymbols, hcount, hscheme, hversion,
    -⟩ := read_assembled hschemes hsteps hids hbody
  refine ⟨⟨hschemes, hsteps, hids, hbody⟩, file, movie, hwrite, hread file hfile, ?_, hbinaries,
    hsymbols 7, hcount, hscheme, hversion⟩
  rw [hblocks]
  rfl

end PackedMovie.Swf.Assembly
