import PackedMovie.Command.Arguments

/-!
# Command lines

A command line spells words: flags, parameters with their values, and the names of outputs. Its
arguments are read as the words that they spell, and every command line that asks for a run spells
some.

Main statements: `readAll_of_spells`, `isSpelled_of_readAll`.
-/
namespace PackedMovie.Command

/-! ### Words -/

/-- One thing that a command line says. -/
inductive Word where
  | parameter (p : Parameter) (value : String)
  | flag (f : Flag)
  | output (name : String)
  deriving DecidableEq

def Parameter.spelling : Parameter → String
  | .input => "--input"
  | .classIndex => "--class"
  | .target => "--target"
  | .settings => "--config"

def Flag.spelling : Flag → String
  | .strict => "--strict"
  | .orderOnly => "--order-only"
  | .json => "--json"
  | .verbose => "--verbose"

/-- The spelling of an option that does not end the reading. -/
def Switch.spelling? : Switch → Option String
  | .parameter p => p.spelling
  | .flag f => f.spelling
  | .version | .help => none

/-- The argument is no option: it is a lone hyphen, or has none in front. -/
def IsPlain (argument : String) : Prop := argument = "-" ∨ ¬ ['-'] <+: argument.toList

/-- A hyphen, some letters that ask for more words about the run, and more letters. -/
def lettered (verbosity : Nat) (letters : List Char) : String :=
  String.ofList ('-' :: (List.replicate verbosity 'v' ++ letters))

/-- These arguments say these words. A value follows its option in an argument of its own, or it is
attached. -/
inductive Spells : List String → List Word → Prop where
  | nil : Spells [] []
  | flag (f : Flag) {arguments : List String} {words : List Word} (h : Spells arguments words) :
    Spells (f.spelling :: arguments) (.flag f :: words)
  | attached (p : Parameter) (value : String) {arguments : List String} {words : List Word}
    (h : Spells arguments words) :
    Spells ((p.spelling ++ "=" ++ value) :: arguments) (.parameter p value :: words)
  | following (p : Parameter) {value : String} {arguments : List String} {words : List Word}
    (hvalue : IsPlain value) (h : Spells arguments words) :
    Spells (p.spelling :: value :: arguments) (.parameter p value :: words)
  | verbose (n : Nat) {arguments : List String} {words : List Word} (h : Spells arguments words) :
    Spells (lettered (n + 1) [] :: arguments) (List.replicate (n + 1) (.flag .verbose) ++ words)
  | letterAttached (n : Nat) (c : Char) (text : List Char) {arguments : List String}
    {words : List Word} (hc : c ≠ '=') (h : Spells arguments words) :
    Spells (lettered n ('i' :: c :: text) :: arguments)
      (List.replicate n (.flag .verbose) ++ .parameter .input (String.ofList (c :: text)) :: words)
  | letterEquals (n : Nat) (text : List Char) {arguments : List String} {words : List Word}
    (h : Spells arguments words) :
    Spells (lettered n ('i' :: '=' :: text) :: arguments)
      (List.replicate n (.flag .verbose) ++ .parameter .input (String.ofList text) :: words)
  | letterFollowing (n : Nat) {value : String} {arguments : List String} {words : List Word}
    (hvalue : IsPlain value) (h : Spells arguments words) :
    Spells (lettered n ['i'] :: value :: arguments)
      (List.replicate n (.flag .verbose) ++ .parameter .input value :: words)
  | output {name : String} {arguments : List String} {words : List Word} (hname : IsPlain name)
    (h : Spells arguments words) : Spells (name :: arguments) (.output name :: words)
  | outputs (names : List String) : Spells ("--" :: names) (names.map .output)

def IsSpelled (arguments : List String) : Prop := ∃ words, Spells arguments words

/-! ### Two hyphens alone are no word -/

theorem IsPlain.ne {name : String} (h : IsPlain name) : name ≠ "--" := by
  rintro rfl
  revert h
  simp [IsPlain]

theorem Flag.spelling_ne (f : Flag) : f.spelling ≠ "--" := by cases f <;> decide

theorem Parameter.spelling_ne (p : Parameter) : p.spelling ≠ "--" := by cases p <;> decide

theorem Parameter.attached_ne (p : Parameter) (value : String) :
    p.spelling ++ "=" ++ value ≠ "--" := by
  cases p <;> simp [Parameter.spelling, ← String.toList_inj]

theorem lettered_ne {n : Nat} {letters : List Char} (h : n ≠ 0 ∨ ['i'] <+: letters) :
    lettered n letters ≠ "--" := by
  rw [lettered, ne_eq, ← String.toList_inj, String.toList_ofList]
  cases n with
  | zero =>
    obtain ⟨rest, rfl⟩ := h.resolve_left fun hn => hn rfl
    simp
  | succ n => simp [List.replicate_succ]

theorem lettered_verbose (n : Nat) (letters : List Char) :
    lettered n ('v' :: letters) = lettered (n + 1) letters := by
  rw [lettered, lettered, List.replicate_succ', List.append_assoc, List.singleton_append]

namespace Arguments

variable {argument value : String} {arguments : List String} {word : Word} {words : List Word}
  {p : Parameter} {a b : Arguments}

/-! ### One argument -/

theorem looksLikeOption_eq_false : looksLikeOption argument = false ↔ IsPlain argument := by
  have hhyphen : "-".toList = ['-'] := rfl
  rw [looksLikeOption, IsPlain, ← hhyphen, ← String.startsWith_string_iff, Bool.and_eq_false_iff,
    Bool.not_eq_true, or_comm]
  simp

theorem readOne_flag (f : Flag) (a : Arguments) :
    a.readOne f.spelling = (a.raise f).map .complete := by
  cases f <;> rfl

theorem readOne_parameter (p : Parameter) (a : Arguments) :
    a.readOne p.spelling = some (.waiting a p) := by
  cases p <;> rfl

theorem readOne_attached (p : Parameter) (value : String) (a : Arguments) :
    a.readOne (p.spelling ++ "=" ++ value) = (a.assign p value).map .complete := by
  have hone : a.readOne (p.spelling ++ "=" ++ value) =
      (a.assign p (String.ofList value.toList)).map .complete := by
    rw [readOne, String.toList_append, String.toList_append]
    cases p <;> rfl
  rwa [String.ofList_toList] at hone

theorem readOne_plain (h : IsPlain argument) (a : Arguments) :
    a.readOne argument = (a.addOutput argument).map .complete := by
  unfold readOne
  split
  · rename_i text htext
    rcases h with rfl | h
    · cases htext
    · exact absurd ⟨_, htext.symm⟩ h
  · rename_i letter letters _ htext
    rcases h with rfl | h
    · cases htext
    · exact absurd ⟨_, htext.symm⟩ h
  · rfl

theorem readShort_replicate (n : Nat) (letters : List Char) (a : Arguments) :
    readShort (List.replicate n 'v' ++ letters) a = readShort letters a := by
  induction n with
  | zero => rfl
  | succ n ih => exact ih

theorem readOne_lettered {n : Nat} {letters : List Char} (h : n ≠ 0 ∨ ['i'] <+: letters)
    (a : Arguments) : a.readOne (lettered n letters) = readShort letters a := by
  rw [readOne, lettered, String.toList_ofList]
  cases n with
  | zero =>
    obtain ⟨rest, rfl⟩ := h.resolve_left fun hn => hn rfl
    rfl
  | succ n => exact readShort_replicate n letters a

theorem readShort_attached {c : Char} (text : List Char) (hc : c ≠ '=') (a : Arguments) :
    readShort ('i' :: c :: text) a =
      (a.assign .input (String.ofList (c :: text))).map .complete := by
  have hletter : Switch.ofLetter? 'i' = some (.parameter .input) := rfl
  rw [readShort, hletter]
  simp only
  split
  · rename_i hnil
    cases hnil
  · rename_i hequals
    exact absurd (List.cons.inj hequals).1 hc
  · rfl

/-! ### Words are said one after another -/

/-- The arguments with one more word said. -/
def say (a : Arguments) : Word → Option Arguments
  | .parameter p value => a.assign p value
  | .flag f => a.raise f
  | .output name => a.addOutput name

theorem foldlM_replicate (n : Nat) (words : List Word) (a : Arguments) :
    (List.replicate n (Word.flag .verbose) ++ words).foldlM say a = words.foldlM say a := by
  induction n with
  | zero => rfl
  | succ n ih => exact ih

theorem readAll_of_complete {said : Option Arguments} (hdashes : argument ≠ "--")
    (h : a.readOne argument = said.map .complete) :
    a.readAll (argument :: arguments) = said >>= fun b => b.readAll arguments := by
  rw [readAll.eq_def]
  simp only [h]
  cases said <;> rfl

theorem readAll_of_waiting (hdashes : argument ≠ "--")
    (h : a.readOne argument = some (.waiting b p)) (hvalue : IsPlain value) :
    a.readAll (argument :: value :: arguments) =
      b.assign p value >>= fun b => b.readAll arguments := by
  rw [readAll.eq_def]
  simp only [h, looksLikeOption_eq_false.2 hvalue]
  cases b.assign p value <;> rfl

theorem readAll_cons (hdashes : argument ≠ "--")
    (hone : a.readOne argument = (a.say word).map .complete)
    (hrest : ∀ b, readAll b arguments = words.foldlM say b >>= request?) :
    a.readAll (argument :: arguments) = (word :: words).foldlM say a >>= request? := by
  rw [readAll_of_complete hdashes hone, List.foldlM_cons, bind_assoc]
  simp only [hrest]

theorem readAll_cons_cons (hdashes : argument ≠ "--")
    (hone : a.readOne argument = some (.waiting a p)) (hvalue : IsPlain value)
    (hrest : ∀ b, readAll b arguments = words.foldlM say b >>= request?) :
    a.readAll (argument :: value :: arguments) =
      (.parameter p value :: words).foldlM say a >>= request? := by
  rw [readAll_of_waiting hdashes hone hvalue, List.foldlM_cons, bind_assoc]
  simp only [hrest]
  rfl

/-- However some words are spelled, reading them is saying one after another. -/
theorem readAll_of_spells (h : Spells arguments words) (a : Arguments) :
    a.readAll arguments = words.foldlM say a >>= request? := by
  induction h generalizing a with
  | nil => rfl
  | flag f _ ih => exact readAll_cons f.spelling_ne (readOne_flag f a) ih
  | attached p value _ ih =>
    exact readAll_cons (p.attached_ne value) (readOne_attached p value a) ih
  | following p hvalue _ ih =>
    exact readAll_cons_cons p.spelling_ne (readOne_parameter p a) hvalue ih
  | verbose n _ ih =>
    have hletters : n + 1 ≠ 0 ∨ ['i'] <+: [] := .inl n.succ_ne_zero
    have hone : a.readOne (lettered (n + 1) []) = (some a).map .complete :=
      readOne_lettered hletters a
    rw [foldlM_replicate, readAll_of_complete (lettered_ne hletters) hone]
    exact ih a
  | letterAttached n c text hc _ ih =>
    have hletters : n ≠ 0 ∨ ['i'] <+: 'i' :: c :: text := .inr ⟨_, rfl⟩
    rw [foldlM_replicate]
    exact readAll_cons (lettered_ne hletters)
      ((readOne_lettered hletters a).trans (readShort_attached text hc a)) ih
  | letterEquals n text _ ih =>
    have hletters : n ≠ 0 ∨ ['i'] <+: 'i' :: '=' :: text := .inr ⟨_, rfl⟩
    rw [foldlM_replicate]
    exact readAll_cons (lettered_ne hletters) (readOne_lettered hletters a) ih
  | letterFollowing n hvalue _ ih =>
    have hletters : n ≠ 0 ∨ ['i'] <+: ['i'] := .inr ⟨_, rfl⟩
    rw [foldlM_replicate]
    exact readAll_cons_cons (lettered_ne hletters) (readOne_lettered hletters a) hvalue ih
  | output hname _ ih => exact readAll_cons hname.ne (readOne_plain hname a) ih
  | outputs names =>
    rw [readAll, List.foldlM_map]
    rfl

/-! ### Every run was spelled -/

theorem mem_of_lookup {α β : Type} [BEq α] [LawfulBEq α] {l : List (α × β)} {a : α} {b : β}
    (h : l.lookup a = some b) : (a, b) ∈ l := by
  obtain ⟨before, after, rfl, -⟩ := List.lookup_eq_some_iff.1 h
  exact List.mem_append_right before List.mem_cons_self

theorem spelling_of_ofName? {name : String} {s : Switch} (h : Switch.ofName? name = some s) :
    ∀ spelling ∈ s.spelling?, spelling = "--" ++ name := by
  have hmem := mem_of_lookup h
  simp only [List.mem_cons, Prod.mk.injEq, List.not_mem_nil, or_false] at hmem
  rcases hmem with ⟨rfl, rfl⟩ | ⟨rfl, rfl⟩ | ⟨rfl, rfl⟩ | ⟨rfl, rfl⟩ | ⟨rfl, rfl⟩ | ⟨rfl, rfl⟩ |
    ⟨rfl, rfl⟩ | ⟨rfl, rfl⟩ | ⟨rfl, rfl⟩ | ⟨rfl, rfl⟩ <;> rintro spelling ⟨⟩ <;> rfl

theorem ofLetter?_cases {letter : Char} {s : Switch} (h : Switch.ofLetter? letter = some s) :
    (letter = 'i' ∧ s = .parameter .input) ∨ (letter = 'v' ∧ s = .flag .verbose) ∨
      s = .version ∨ s = .help := by
  have hmem := mem_of_lookup h
  simp only [List.mem_cons, Prod.mk.injEq, List.not_mem_nil, or_false] at hmem
  rcases hmem with hmem | hmem | hmem | hmem
  · exact .inl hmem
  · exact .inr (.inl hmem)
  · exact .inr (.inr (.inl hmem.2))
  · exact .inr (.inr (.inr hmem.2))

/-- What an argument that was read in this way may begin. -/
def Begins (argument : String) : Reading → Prop
  | .complete _ => ∀ arguments, IsSpelled arguments → IsSpelled (argument :: arguments)
  | .waiting _ _ => ∀ value arguments, IsPlain value → IsSpelled arguments →
    IsSpelled (argument :: value :: arguments)
  | .decided request => ∀ job, request ≠ .run job

variable {text : List Char} {r : Reading}

theorem begins_of_readLong (h : a.readLong text = some r) :
    Begins (String.ofList ('-' :: '-' :: text)) r := by
  have hparts : String.ofList ('-' :: '-' :: text) = "--" ++
      String.ofList (text.takeWhile (· ≠ '=')) ++ String.ofList (text.dropWhile (· ≠ '=')) := by
    rw [← String.toList_inj]
    simp
  unfold readLong at h
  simp only at h
  rw [hparts]
  split at h
  · rename_i p hname hrest
    cases h
    rw [hrest, ← spelling_of_ofName? hname _ rfl, String.ofList_nil, String.append_empty]
    rintro value arguments hvalue ⟨words, hwords⟩
    exact ⟨_, hwords.following p hvalue⟩
  · rename_i p c value hname hrest
    obtain ⟨b, -, rfl⟩ := Option.map_eq_some_iff.1 h
    have hhead := List.head?_dropWhile_not (· ≠ '=') text
    rw [hrest] at hhead
    obtain rfl : c = '=' := by simpa using hhead
    have hvalue : String.ofList ('=' :: value) = "=" ++ String.ofList value := String.ofList_cons
    rw [hrest, ← spelling_of_ofName? hname _ rfl, hvalue, ← String.append_assoc]
    rintro arguments ⟨words, hwords⟩
    exact ⟨_, hwords.attached p (String.ofList value)⟩
  · rename_i f hname hrest
    obtain ⟨b, -, rfl⟩ := Option.map_eq_some_iff.1 h
    rw [hrest, ← spelling_of_ofName? hname _ rfl, String.ofList_nil, String.append_empty]
    rintro arguments ⟨words, hwords⟩
    exact ⟨_, hwords.flag f⟩
  · cases h
    exact fun _ => nofun
  · cases h
    exact fun _ => nofun
  · cases h

theorem begins_of_readInput {n : Nat} (h : readShort ('i' :: text) a = some r) :
    Begins (lettered n ('i' :: text)) r := by
  have hletter : Switch.ofLetter? 'i' = some (.parameter .input) := rfl
  rw [readShort, hletter] at h
  simp only at h
  split at h
  · cases h
    rintro value arguments hvalue ⟨words, hwords⟩
    exact ⟨_, hwords.letterFollowing n hvalue⟩
  · rename_i text
    obtain ⟨b, -, rfl⟩ := Option.map_eq_some_iff.1 h
    rintro arguments ⟨words, hwords⟩
    exact ⟨_, hwords.letterEquals n text⟩
  · rename_i hnil hequals
    obtain ⟨b, -, rfl⟩ := Option.map_eq_some_iff.1 h
    rintro arguments ⟨words, hwords⟩
    cases text with
    | nil => exact absurd rfl hnil
    | cons c text =>
      have hc : c ≠ '=' := by
        rintro rfl
        exact hequals text rfl
      exact ⟨_, hwords.letterAttached n c text hc⟩

theorem begins_of_readShort {n : Nat} (hsome : n ≠ 0 ∨ text ≠ [])
    (h : readShort text a = some r) : Begins (lettered n text) r := by
  -- The letters that were read before those of the text have only asked for more words.
  induction text generalizing a n with
  | nil =>
    cases h
    obtain ⟨n, rfl⟩ := Nat.exists_eq_succ_of_ne_zero (hsome.resolve_right fun h => h rfl)
    rintro arguments ⟨words, hwords⟩
    exact ⟨_, hwords.verbose n⟩
  | cons letter text ih =>
    cases hletter : Switch.ofLetter? letter with
    | none =>
      rw [readShort, hletter] at h
      cases h
    | some s =>
      rcases ofLetter?_cases hletter with ⟨rfl, rfl⟩ | ⟨rfl, rfl⟩ | rfl | rfl
      · exact begins_of_readInput h
      · rw [lettered_verbose]
        exact ih (.inl n.succ_ne_zero) h
      · rw [readShort, hletter] at h
        cases h
        exact fun _ => nofun
      · rw [readShort, hletter] at h
        cases h
        exact fun _ => nofun

theorem begins_of_readOne (h : a.readOne argument = some r) : Begins argument r := by
  unfold readOne at h
  split at h
  · rename_i text htext
    rw [← String.ofList_toList (s := argument), htext]
    exact begins_of_readLong h
  · rename_i letter letters _ htext
    rw [← String.ofList_toList (s := argument), htext]
    exact begins_of_readShort (n := 0) (.inr (List.cons_ne_nil _ _)) h
  · rename_i hshort
    obtain ⟨b, -, rfl⟩ := Option.map_eq_some_iff.1 h
    have hplain : IsPlain argument := by
      by_cases hhyphen : ['-'] <+: argument.toList
      · obtain ⟨rest, hrest⟩ := hhyphen
        cases rest with
        | nil => exact .inl (String.toList_inj.1 hrest.symm)
        | cons c rest => exact (hshort c rest hrest.symm).elim
      · exact .inr hhyphen
    rintro arguments ⟨words, hwords⟩
    exact ⟨_, hwords.output hplain⟩

theorem isSpelled_of_readAll {job : Job} (h : a.readAll arguments = some (.run job)) :
    IsSpelled arguments := by
  fun_induction readAll a arguments with
  | case1 a => exact ⟨[], .nil⟩
  | case2 a names => exact ⟨_, .outputs names⟩
  | case3 a argument hdashes b rest hone ih => exact begins_of_readOne hone rest (ih h)
  | case4 => cases h
  | case5 a argument hdashes b p value rest hone hvalue c hassign ih =>
    have hplain : IsPlain value := looksLikeOption_eq_false.1 (Bool.eq_false_iff.2 hvalue)
    exact begins_of_readOne hone value rest hplain (ih h)
  | case6 => cases h
  | case7 => cases h
  | case8 a argument rest hdashes request hone =>
    cases h
    exact absurd rfl (begins_of_readOne hone job)
  | case9 => cases h

end Arguments
end PackedMovie.Command
