import Mathlib.Data.List.Basic
import PackedMovie.Proofs.Resource.Resolution
import PackedMovie.Proofs.Swf.Assembly
import PackedMovie.Zlib.Codec

/-!
# Unpacking undoes packing

A movie that holds a packed class and the payloads of its resources is read, its order is resolved,
and the payloads come out in that order.

Main statement: `unpack_packed`.
-/
namespace PackedMovie.Resource

open PackedMovie.Swf (AbcBlock Assembly BinaryData Codec Movie NulFree)
open PackedMovie.Swf.Assembly (Step)

/-! ### Symbols -/

/-- A symbol names what stands behind its first underscore, or itself if it has none. -/
inductive Symbolizes : String → String → Prop where
  | plain {name : String} (hname : '_' ∉ name.toList) : Symbolizes name name
  | prefixed {front name : String} (hfront : '_' ∉ front.toList) :
      Symbolizes (front ++ "_" ++ name) name

theorem shortName_of_symbolizes {symbol name : String} (h : Symbolizes symbol name) :
    shortName symbol = name := by
  have hkeep {text : String} (htext : '_' ∉ text.toList) :
      ∀ c ∈ text.toList, (c != '_') = true := by
    intro c hc
    rw [bne_iff_ne]
    rintro rfl
    exact htext hc
  cases h with
  | plain hname =>
    have hdrop : symbol.toList.dropWhile (· != '_') = [] := by
      rw [← List.append_nil symbol.toList, List.dropWhile_append_of_pos (hkeep hname)]
      rfl
    rw [shortName, hdrop]
  | @prefixed front _ hfront =>
    have hlist : (front ++ "_" ++ name).toList = front.toList ++ '_' :: name.toList := by simp
    have hdrop : (front ++ "_" ++ name).toList.dropWhile (· != '_') = '_' :: name.toList := by
      rw [hlist, List.dropWhile_append_of_pos (hkeep hfront)]
      rfl
    rw [shortName, hdrop]
    exact String.ofList_toList

/-! ### Payloads -/

/-- A payload with the symbol that is linked to it, and the name that the symbol stands for. -/
structure Linked where
  id : UInt16
  symbol : String
  name : String
  payload : Bytes
  deriving DecidableEq, Repr

namespace Linked

def binary (r : Linked) : Step := .binaryData r.id r.payload

def link (r : Linked) : Step := .symbol r.id r.symbol

end Linked

theorem writePayloads_chosen {binaries : Dictionary String Bytes} {chosen : List Linked}
    (h : ∀ r ∈ chosen, binaries.get? r.name = some r.payload) (written : Bytes) :
    writePayloads binaries (chosen.map Linked.name) ⟨written, none, false⟩ =
      (.ok none, ⟨written ++ chosen.flatMap Linked.payload, none, false⟩) := by
  induction chosen generalizing written with
  | nil =>
    rw [List.flatMap_nil, List.append_nil]
    rfl
  | cons r chosen ih =>
    have hrest := ih (fun other hother => h other (List.mem_cons_of_mem r hother))
    rw [List.map_cons, writePayloads, h r List.mem_cons_self]
    simp only [Sink.write_unlimited]
    rw [hrest, List.flatMap_cons, List.append_assoc]

/-! ### Movies -/

/-- A call that sets how the movie is written, in a scheme that can be written. -/
def IsSetting : Step → Prop
  | .compression scheme => scheme ≠ .lzma
  | .version _ => True
  | _ => False

/-- The steps put a packed class into the first frame and the payloads with their symbols beside it,
in any order. The constructor names the resources that are chosen, of which one may be chosen
repeatedly. The length of a tag has 32 bits, and that of the table of symbols 16. -/
structure Packs (p : Packing) (resources chosen : List Linked) (steps : List Step) : Prop where
  packing : p.WellFormed
  order : p.order = chosen.map Linked.name
  chosen : ∀ r ∈ chosen, r ∈ resources
  ids : (resources.map Linked.id).Nodup
  names : (resources.map Linked.name).Nodup
  symbols : ∀ r ∈ resources, Symbolizes r.symbol r.name ∧ NulFree r.symbol
  count : resources.length ≤ 65535
  assembled : ∃ settings, (∀ s ∈ settings, IsSetting s) ∧
    steps.Perm (settings ++ .abc Movie.firstFrameName p.program ::
      (resources.map Linked.binary ++ resources.map Linked.link))
  sizes : ∀ raw ∈ (Assembly.ofSteps steps).allTags, raw.body.length < UInt32.size

section

variable {p : Packing} {resources chosen : List Linked} {steps : List Step}

theorem Packs.filterMap_steps (h : Packs p resources chosen steps) {α : Type} {f : Step → Option α}
    (hsettings : ∀ s, IsSetting s → f s = none) :
    (steps.filterMap f).Perm ((f (.abc Movie.firstFrameName p.program)).toList ++
      (resources.filterMap (f ∘ Linked.binary) ++ resources.filterMap (f ∘ Linked.link))) := by
  obtain ⟨settings, hset, hperm⟩ := h.assembled
  have hnone : settings.filterMap f = [] := by
    rw [List.filterMap_eq_nil_iff]
    intro s hs
    exact hsettings s (hset s hs)
  have hmapped := hperm.filterMap f
  rw [List.filterMap_append, hnone, List.nil_append, List.filterMap_cons, List.filterMap_append,
    List.filterMap_map, List.filterMap_map] at hmapped
  cases hblock : f (.abc Movie.firstFrameName p.program) with
  | none => rwa [hblock] at hmapped
  | some a => rwa [hblock] at hmapped

theorem isSetting_cases {s : Step} (h : IsSetting s) :
    s.block? = none ∧ s.binary? = none ∧ s.link? = none ∧ s.WellFormed := by
  cases s with
  | compression scheme => exact ⟨rfl, rfl, rfl, True.intro⟩
  | version number => exact ⟨rfl, rfl, rfl, True.intro⟩
  | _ => exact h.elim

def frame (p : Packing) : AbcBlock where
  flags := 1
  name := Movie.firstFrameName
  size := p.program.write.length
  program := p.program

theorem Packs.blocks (h : Packs p resources chosen steps) :
    steps.filterMap Step.block? = [frame p] := by
  have hperm := h.filterMap_steps fun s hs => (isSetting_cases hs).1
  have hbinaries : resources.filterMap (Step.block? ∘ Linked.binary) = [] := by
    simp [Linked.binary, Step.block?]
  have hlinks : resources.filterMap (Step.block? ∘ Linked.link) = [] := by
    simp [Linked.link, Step.block?]
  rw [hbinaries, hlinks] at hperm
  exact hperm.eq_singleton

theorem Packs.binaries (h : Packs p resources chosen steps) :
    (steps.filterMap Step.binary?).Perm (resources.map fun r => ⟨r.id, r.payload⟩) := by
  have hperm := h.filterMap_steps fun s hs => (isSetting_cases hs).2.1
  have hlinks : resources.filterMap (Step.binary? ∘ Linked.link) = [] := by
    simp [Linked.link, Step.binary?]
  have hbinaries : resources.filterMap (Step.binary? ∘ Linked.binary) =
      resources.map fun r => ⟨r.id, r.payload⟩ := congrFun List.filterMap_eq_map resources
  rwa [hlinks, List.append_nil, hbinaries] at hperm

theorem Packs.links (h : Packs p resources chosen steps) :
    (steps.filterMap Step.link?).Perm (resources.map fun r => (r.id, r.symbol)) := by
  have hperm := h.filterMap_steps fun s hs => (isSetting_cases hs).2.2.1
  have hbinaries : resources.filterMap (Step.link? ∘ Linked.binary) = [] := by
    simp [Linked.binary, Step.link?]
  have hlinks : resources.filterMap (Step.link? ∘ Linked.link) =
      resources.map fun r => (r.id, r.symbol) := congrFun List.filterMap_eq_map resources
  rwa [hbinaries, hlinks] at hperm

/-! ### What is read back -/

theorem Packs.get?_symbols (h : Packs p resources chosen steps) {r : Linked} (hr : r ∈ resources) :
    (Assembly.ofSteps steps).symbols.get? r.id = some r.symbol := by
  have hids : ((steps.filterMap Step.link?).map Prod.fst).Nodup := by
    rw [(h.links.map Prod.fst).nodup_iff, List.map_map]
    exact h.ids
  have hmem : (r.id, r.symbol) ∈ steps.filterMap Step.link? := by
    rw [h.links.mem_iff]
    exact List.mem_map_of_mem hr
  rw [Assembly.ofSteps, Assembly.foldl_run_symbols]
  exact Dictionary.get?_insertAll_of_mem hids hmem _

theorem Packs.namedBinaries (h : Packs p resources chosen steps) :
    (Assembly.movie steps).namedBinaries.Perm (resources.map fun r => (r.symbol, r.payload)) := by
  have hperm := h.binaries.filterMap fun binary =>
    ((Assembly.movie steps).symbols.get? binary.characterId).map fun name => (name, binary.data)
  have hresources : (resources.map fun r => (⟨r.id, r.payload⟩ : BinaryData)).filterMap
      (fun binary => ((Assembly.movie steps).symbols.get? binary.characterId).map
        fun name => (name, binary.data)) = resources.map fun r => (r.symbol, r.payload) := by
    rw [List.filterMap_map, List.filterMap_eq_map_iff_forall_eq_some]
    intro r hr
    have hsymbol : (Assembly.movie steps).symbols.get? r.id = some r.symbol := h.get?_symbols hr
    simp only [Function.comp_apply, hsymbol, Option.map_some]
  rwa [hresources] at hperm

theorem Packs.get?_payloads (h : Packs p resources chosen steps) {r : Linked} (hr : r ∈ resources) :
    (payloads (Assembly.movie steps)).get? r.name = some r.payload := by
  have hperm : ((Assembly.movie steps).namedBinaries.map fun binary =>
      (shortName binary.1, binary.2)).Perm (resources.map fun r => (r.name, r.payload)) := by
    have hmapped := h.namedBinaries.map fun binary => (shortName binary.1, binary.2)
    rw [List.map_map] at hmapped
    have hnames : resources.map ((fun binary : String × Bytes => (shortName binary.1, binary.2)) ∘
        fun r : Linked => (r.symbol, r.payload)) = resources.map fun r => (r.name, r.payload) := by
      apply List.map_congr_left
      intro r hr
      simp only [Function.comp_apply, shortName_of_symbolizes (h.symbols r hr).1]
    rwa [hnames] at hmapped
  apply Dictionary.get?_insertAll_of_mem
  · rw [(hperm.map Prod.fst).nodup_iff, List.map_map]
    exact h.names
  · rw [hperm.mem_iff]
    exact List.mem_map_of_mem hr

/-! ### What can be written -/

theorem Packs.program_length_lt (h : Packs p resources chosen steps) :
    p.program.write.length < UInt32.size := by
  obtain ⟨settings, _, hperm⟩ := h.assembled
  have hstep : Step.abc Movie.firstFrameName p.program ∈ steps := by
    rw [hperm.mem_iff]
    exact List.mem_append_right _ List.mem_cons_self
  have htag := h.sizes _ (Assembly.mem_allTags hstep rfl)
  simp only [List.length_append] at htag
  omega

theorem Packs.mem_cases (h : Packs p resources chosen steps) {s : Step} (hs : s ∈ steps) :
    IsSetting s ∨ s = .abc Movie.firstFrameName p.program ∨
      (∃ r ∈ resources, s = r.binary) ∨ ∃ r ∈ resources, s = r.link := by
  obtain ⟨settings, hset, hperm⟩ := h.assembled
  rw [hperm.mem_iff, List.mem_append, List.mem_cons, List.mem_append] at hs
  rcases hs with hs | rfl | hs | hs
  · exact .inl (hset s hs)
  · exact .inr (.inl rfl)
  · obtain ⟨r, hr, rfl⟩ := List.mem_map.1 hs
    exact .inr (.inr (.inl ⟨r, hr, rfl⟩))
  · obtain ⟨r, hr, rfl⟩ := List.mem_map.1 hs
    exact .inr (.inr (.inr ⟨r, hr, rfl⟩))

theorem Packs.wellFormed_steps (h : Packs p resources chosen steps) {s : Step} (hs : s ∈ steps) :
    s.WellFormed := by
  rcases h.mem_cases hs with hs | rfl | ⟨r, _, rfl⟩ | ⟨r, hr, rfl⟩
  · exact (isSetting_cases hs).2.2.2
  · have hname : NulFree Movie.firstFrameName := by decide
    exact ⟨hname, Packing.wellFormed_program h.packing h.program_length_lt⟩
  · exact True.intro
  · exact (h.symbols r hr).2

theorem Packs.compression_ne (h : Packs p resources chosen steps) :
    (Assembly.ofSteps steps).compression ≠ .lzma := by
  apply Assembly.compression_foldl_run
  · rintro s hs rfl
    rcases h.mem_cases hs with hs | hs | ⟨r, _, hs⟩ | ⟨r, _, hs⟩
    · exact hs rfl
    · cases hs
    · cases hs
    · cases hs
  · decide

theorem Packs.symbols_lt (h : Packs p resources chosen steps) :
    (Assembly.ofSteps steps).symbols.size < UInt16.size := by
  have hsize := Dictionary.size_insertAll_le (steps.filterMap Step.link?)
    (.empty : Dictionary UInt16 String)
  have hlength := h.links.length_eq
  have hcount := h.count
  have hempty : (.empty : Dictionary UInt16 String).size = 0 := rfl
  have hmax : UInt16.size = 65536 := rfl
  rw [List.length_map] at hlength
  rw [Assembly.ofSteps, Assembly.foldl_run_symbols]
  change (Dictionary.empty.insertAll (steps.filterMap Step.link?)).size < UInt16.size
  omega

/-! ### The whole way -/

/-- A movie that was packed is read and unpacked: nothing is missing, and what is written are the
payloads of the chosen resources in their order. -/
theorem unpack_packed [Codec] (h : Packs p resources chosen steps) (strict : Bool) :
    ∃ file movie u, (Assembly.ofSteps steps).write = .ok file ∧ Movie.read file = .ok movie ∧
      Unpacker.new movie = .ok u ∧
      let done := (u.withOptions ⟨0, p.target, strict⟩).unpack .unlimited
      done.1 = (.ok none, ⟨chosen.flatMap Linked.payload, none, false⟩) ∧
        done.2.resolution.keymap = ⟨p.keymap⟩ ∧ done.2.resolution.order = p.order := by
  obtain ⟨file, hwrite, hread⟩ := Assembly.write_read h.compression_ne (fun s => h.wellFormed_steps)
    h.symbols_lt h.sizes
  have hframe : (Assembly.movie steps).firstFrame? = some (frame p) := by
    rw [Movie.firstFrame?, Assembly.movie, h.blocks]
    rfl
  have hnew : Unpacker.new (Assembly.movie steps) = .ok
      { movie := Assembly.movie steps, frame := frame p, options := .standard, resolution := .empty,
        binaries := .empty } := by
    rw [Unpacker.new, hframe]
  refine ⟨file, Assembly.movie steps, _, hwrite, hread, hnew, ?_⟩
  have hresolve := Packing.resolve_program h.packing strict
  have hpayloads := writePayloads_chosen (fun r hr => h.get?_payloads (h.chosen r hr)) []
  rw [← h.order, List.nil_append] at hpayloads
  simp only [Unpacker.unpack, Unpacker.resolveOrder, Unpacker.withOptions, frame, hresolve]
  exact ⟨hpayloads, rfl, rfl⟩

end

/-! ### A packed movie -/

/-- A keymap of two letters, one of which has two bytes. -/
def bilingual : Packing where
  keymap := "aé"
  target := "é"
  order := ["a", "éa", "a"]
  accessorNames := ["x", "y", "x"]
  writerName := "w"
  className := "Main"
  staticStack := 1
  constructorStack := 4
  position b := if b = 0x61 then 0 else if b = 0xC3 then 1 else 2

def bilingualResources : List Linked := [⟨7, "game_a", "a", [1, 2]⟩, ⟨2, "éa", "éa", [3]⟩]

def bilingualChosen : List Linked :=
  [⟨7, "game_a", "a", [1, 2]⟩, ⟨2, "éa", "éa", [3]⟩, ⟨7, "game_a", "a", [1, 2]⟩]

/-- The settings come last, and the class comes behind the symbols. -/
def bilingualSteps : List Step :=
  List.reverse ([.version 10, .compression .zlib] ++ .abc Movie.firstFrameName bilingual.program ::
    (bilingualResources.map Linked.binary ++ bilingualResources.map Linked.link))

theorem packs_bilingual : Packs bilingual bilingualResources bilingualChosen bilingualSteps := by
  constructor
  · constructor <;> decide +kernel
  · rfl
  · decide
  · decide
  · decide
  · intro r hr
    simp only [bilingualResources, List.mem_cons, List.not_mem_nil, or_false] at hr
    rcases hr with rfl | rfl
    · have hsymbol : "game" ++ "_" ++ "a" = "game_a" := by decide
      have hfront : '_' ∉ "game".toList := by decide
      have hnul : NulFree "game_a" := by decide
      exact ⟨hsymbol ▸ Symbolizes.prefixed hfront, hnul⟩
    · have hname : '_' ∉ "éa".toList := by decide
      have hnul : NulFree "éa" := by decide
      exact ⟨Symbolizes.plain hname, hnul⟩
  · decide
  · refine ⟨[.version 10, .compression .zlib], ?_, List.reverse_perm _⟩
    simp [IsSetting]
  · decide +kernel

theorem unpack_packed_bilingual :
    ∃ file movie u, (Assembly.ofSteps bilingualSteps).write = .ok file ∧
      Movie.read file = .ok movie ∧ Unpacker.new movie = .ok u ∧
      ((u.withOptions ⟨0, "é", true⟩).unpack .unlimited).1 =
        (.ok none, ⟨[1, 2, 3, 1, 2], none, false⟩) := by
  obtain ⟨file, movie, u, hwrite, hread, hnew, hdone, _⟩ := unpack_packed packs_bilingual true
  exact ⟨file, movie, u, hwrite, hread, hnew, hdone⟩

end PackedMovie.Resource
