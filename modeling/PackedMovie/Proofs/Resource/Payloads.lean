import PackedMovie.Proofs.Resource.Calls
import PackedMovie.Proofs.Resource.Unpacking
import PackedMovie.Proofs.Swf.TagData

/-!
# What is written

Unpacking writes the payloads of the names in their order, up to the first name that has none. Which
payload a name has is said of the tags of the file: of the links to a character the last one counts,
and of the binaries whose symbols stand for one name the last one does.

Main statement: `Unpacker.unpack_writes`.
-/
namespace PackedMovie.Resource

open PackedMovie.Swf (BinaryData Codec Header Movie RawTag Tag)

/-! ### Payloads -/

/-- The last link to a character, over all tags, gives it this symbol. -/
def IsSymbol (tags : List Tag) (id : UInt16) (symbol : String) : Prop :=
  ∃ before after, tags.flatMap Tag.links = before ++ (id, symbol) :: after ∧
    ∀ link ∈ after, link.1 ≠ id

/-- The character of the binary has a symbol, which stands for this name. -/
def IsNamed (tags : List Tag) (binary : BinaryData) (name : String) : Prop :=
  ∃ symbol, IsSymbol tags binary.characterId symbol ∧ Symbolizes symbol name

/-- Of the binaries with this name the last one holds these bytes. -/
def IsPayload (tags : List Tag) (name : String) (data : Bytes) : Prop :=
  ∃ before binary after, tags.filterMap Tag.binary? = before ++ binary :: after ∧
    IsNamed tags binary name ∧ binary.data = data ∧ ∀ other ∈ after, ¬ IsNamed tags other name

/-- The name is what stands behind the first underscore. -/
theorem symbolizes_iff {symbol name : String} :
    Symbolizes symbol name ↔ shortName symbol = name := by
  refine ⟨shortName_of_symbolizes, ?_⟩
  rintro rfl
  have hsplit := List.takeWhile_append_dropWhile (p := (· != '_')) (l := symbol.toList)
  have hfront : '_' ∉ symbol.toList.takeWhile (· != '_') := by
    intro hmem
    have hne := List.all_eq_true.1 List.all_takeWhile _ hmem
    simp at hne
  generalize symbol.toList.takeWhile (· != '_') = front at hsplit hfront
  unfold shortName
  split
  · rename_i c rest hdrop
    have hunderscore : c = '_' := by
      have hhead := List.head?_dropWhile_not (· != '_') symbol.toList
      rw [hdrop] at hhead
      simpa using hhead
    rw [hdrop, hunderscore] at hsplit
    have hsymbol : String.ofList front ++ "_" ++ String.ofList rest = symbol := by
      rw [← String.toList_inj]
      simpa using hsplit
    have hprefixed : Symbolizes (String.ofList front ++ "_" ++ String.ofList rest)
        (String.ofList rest) := .prefixed (by simpa using hfront)
    rwa [hsymbol] at hprefixed
  · rename_i hdrop
    rw [hdrop, List.append_nil] at hsplit
    exact .plain (hsplit ▸ hfront)

section

variable {header : Header} {tags : List Tag}

theorem get?_symbols_iff {id : UInt16} {symbol : String} :
    (Movie.ofTags header tags).symbols.get? id = some symbol ↔ IsSymbol tags id symbol :=
  Dictionary.get?_ofList_eq_some_iff

end

/-- What a binary of a movie is entered as under a name, if its symbol stands for this name. -/
def dataAs? (m : Movie) (name : String) (binary : BinaryData) : Option Bytes :=
  (m.symbols.get? binary.characterId).bind fun symbol =>
    if name = shortName symbol then some binary.data else none

theorem get?_payloads (m : Movie) (name : String) :
    (payloads m).get? name = m.binaryData.reverse.findSome? (dataAs? m name) := by
  rw [payloads, Dictionary.get?_ofList, Movie.namedBinaries, List.map_filterMap,
    ← List.filterMap_reverse, ← List.head?_filterMap, List.filterMap_filterMap,
    List.head?_filterMap]
  congr 1
  funext binary
  rw [dataAs?]
  cases m.symbols.get? binary.characterId <;> rfl

section

variable {header : Header} {tags : List Tag} {name : String} {data : Bytes}

theorem dataAs?_eq_some_iff {binary : BinaryData} :
    dataAs? (.ofTags header tags) name binary = some data ↔
      IsNamed tags binary name ∧ binary.data = data := by
  rw [dataAs?, Option.bind_eq_some_iff]
  constructor
  · rintro ⟨symbol, hsymbol, hdata⟩
    simp only [Option.ite_none_right_eq_some, Option.some.injEq] at hdata
    exact ⟨⟨symbol, get?_symbols_iff.1 hsymbol, symbolizes_iff.2 hdata.1.symm⟩, hdata.2⟩
  · rintro ⟨⟨symbol, hsymbol, hname⟩, rfl⟩
    exact ⟨symbol, get?_symbols_iff.2 hsymbol, if_pos (symbolizes_iff.1 hname).symm⟩

theorem dataAs?_eq_none_iff {binary : BinaryData} :
    dataAs? (.ofTags header tags) name binary = none ↔ ¬ IsNamed tags binary name := by
  rw [Option.eq_none_iff_forall_ne_some]
  constructor
  · intro hnone hnamed
    exact hnone binary.data (dataAs?_eq_some_iff.2 ⟨hnamed, rfl⟩)
  · intro hnot data hdata
    exact hnot (dataAs?_eq_some_iff.1 hdata).1

theorem get?_payloads_iff :
    (payloads (.ofTags header tags)).get? name = some data ↔ IsPayload tags name data := by
  rw [get?_payloads, History.findSome?_reverse_eq_some_iff]
  simp only [dataAs?_eq_some_iff, dataAs?_eq_none_iff, and_assoc]
  rfl

end

/-! ### Writing -/

theorem writePayloads_split (binaries : Dictionary String Bytes) (order : Order) (written : Bytes) :
    ∃ front back datas, order = front ++ back ∧
      List.Forall₂ (fun name data => binaries.get? name = some data) front datas ∧
      (∀ name ∈ back.head?, binaries.get? name = none) ∧
      writePayloads binaries order ⟨written, none, false⟩ =
        (.ok back.head?, ⟨written ++ datas.flatten, none, false⟩) := by
  induction order generalizing written with
  | nil => exact ⟨[], [], [], rfl, .nil, by simp, by simp [writePayloads, Sink.flush]⟩
  | cons name order ih =>
    cases hname : binaries.get? name with
    | none =>
      refine ⟨[], name :: order, [], rfl, .nil, by simpa using hname, ?_⟩
      simp [writePayloads, hname]
    | some data =>
      obtain ⟨front, back, datas, rfl, hfront, hback, hwrite⟩ := ih (written ++ data)
      refine ⟨name :: front, back, data :: datas, rfl, .cons hname hfront, hback, ?_⟩
      rw [writePayloads, hname]
      simp only [Sink.write_unlimited]
      rw [hwrite, List.flatten_cons, List.append_assoc]

namespace Unpacker

theorem unpack_of_resolveOrder {u : Unpacker} {order : Order} (h : u.resolveOrder.1 = .ok order)
    (sink : Sink) : (u.unpack sink).1 = writePayloads (payloads u.movie) order sink := by
  obtain ⟨r, rfl, hfound⟩ := resolveOrder_of_ok h
  rw [unpack, hfound]
  rfl

/-- Once the order is found, the payloads of its names are written one after another, and the first
name that has none is the answer. -/
theorem unpack_writes [Codec] {file : Bytes} {u : Unpacker} {order : Order}
    (hmovie : Movie.read file = .ok u.movie) (horder : u.resolveOrder.1 = .ok order)
    (written : Bytes) :
    ∃ header body tags front back datas, Header.read file = .ok (header, body) ∧
      Tag.readAll (.ofBytes body) = .ok tags ∧ order = front ++ back ∧
      List.Forall₂ (IsPayload tags) front datas ∧
      (∀ name ∈ back.head?, ∀ data, ¬ IsPayload tags name data) ∧
      (u.unpack ⟨written, none, false⟩).1 =
        (.ok back.head?, ⟨written ++ datas.flatten, none, false⟩) := by
  obtain ⟨header, body, tags, hheader, htags, htold⟩ := Movie.read_eq_ok_iff.1 hmovie
  obtain ⟨front, back, datas, hsplit, hfront, hback, hwrite⟩ :=
    writePayloads_split (payloads u.movie) order written
  refine ⟨header, body, tags, front, back, datas, hheader, htags, hsplit, ?_, ?_, ?_⟩
  · refine hfront.imp fun name data hdata => ?_
    rw [htold] at hdata
    exact get?_payloads_iff.1 hdata
  · intro name hname data hdata
    have hnone := hback name hname
    rw [htold, get?_payloads_iff.2 hdata] at hnone
    cases hnone
  · rw [unpack_of_resolveOrder horder, hwrite]

/-- The constructor names "b", then "a", then "b" again. -/
def repeating : Abc.Program :=
  { lettered with
    methods := lettered.methods.take 3 ++ [Abc.Method.empty.withBody 3 (Code.assemble
      ([.getLocal0, .constructSuper 0] ++ [2, 1, 2].flatMap fun name =>
        [.getLocal0, .callProperty 1 0, .getLocal0, .callProperty name 0, .add, .pop]))] }

/-- Two binaries have one character, which is linked twice, and a third one has the same name. -/
def collidingFile : Bytes :=
  Movie.bare ++ [
    (⟨Swf.symbolClassCode, [2, 0] ++ Swf.Assembly.writeLink (5, "x") ++
      Swf.Assembly.writeLink (6, "other_b")⟩ : RawTag),
    ⟨Swf.binaryDataCode, [6, 0, 0, 0, 0, 0, 9]⟩,
    ⟨Swf.binaryDataCode, [5, 0, 0, 0, 0, 0, 7]⟩,
    ⟨Swf.binaryDataCode, [5, 0, 0, 0, 0, 0, 8]⟩,
    ⟨Swf.symbolClassCode, [1, 0] ++ Swf.Assembly.writeLink (5, "game_b")⟩,
    ⟨Swf.abcCode, Swf.Assembly.abcFlags ++ Swf.writeCstring Movie.firstFrameName ++
      repeating.write⟩].flatMap RawTag.write

def colliding : Unpacker where
  movie := .ofTags Movie.bareHeader
    [.symbols [(5, "x"), (6, "other_b")], .binary ⟨6, [9]⟩, .binary ⟨5, [7]⟩, .binary ⟨5, [8]⟩,
      .symbols [(5, "game_b")], .abc ⟨1, Movie.firstFrameName, repeating.write.length, repeating⟩]
  frame := ⟨1, Movie.firstFrameName, repeating.write.length, repeating⟩
  options := ⟨0, "a", false⟩
  resolution := .empty
  binaries := .empty

/-- The first name has the last of the three payloads, and the second one has none. -/
theorem unpack_writes_colliding :
    Movie.read collidingFile = .ok colliding.movie ∧
      colliding.resolveOrder.1 = .ok ["b", "a", "b"] ∧
      ∃ tags front back datas, ["b", "a", "b"] = front ++ back ∧
        List.Forall₂ (IsPayload tags) front datas ∧
        (∀ name ∈ back.head?, ∀ data, ¬ IsPayload tags name data) ∧
        back.head? = some "a" ∧ datas.flatten = [8] := by
  have hmovie : Movie.read collidingFile = .ok colliding.movie := by decide +kernel
  have horder : colliding.resolveOrder.1 = .ok ["b", "a", "b"] := by decide +kernel
  have hresult : (colliding.unpack .unlimited).1 = (.ok (some "a"), ⟨[8], none, false⟩) := by
    decide +kernel
  obtain ⟨header, body, tags, front, back, datas, -, -, hsplit, hfront, hback, hwrite⟩ :=
    unpack_writes hmovie horder []
  have hsame := hwrite.symm.trans hresult
  simp only [List.nil_append, Prod.mk.injEq, Except.ok.injEq, Sink.mk.injEq, and_true] at hsame
  exact ⟨hmovie, horder, tags, front, back, datas, hsplit, hfront, hback, hsame.1, hsame.2⟩

end Unpacker
end PackedMovie.Resource
