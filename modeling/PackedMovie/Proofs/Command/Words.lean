import Mathlib.Data.List.Induction
import PackedMovie.Proofs.Command.CommandLine

/-!
# What a command line asks for

What a run is to do is what the words of its command line say. How they are spelled does not matter,
and their order does not either.

Main statement: `says_of_ofArguments?`.
-/
namespace PackedMovie.Command

@[simp] def Word.valueOf? (p : Parameter) : Word → Option String
  | .parameter q value => if q = p then some value else none
  | _ => none

@[simp] def Word.output? : Word → Option String
  | .output name => some name
  | _ => none

/-- The value that some words give to a parameter. -/
def valueOf? (p : Parameter) (words : List Word) : Option String :=
  words.findSome? (Word.valueOf? p)

/-- The output that some words name. -/
def outputOf? (words : List Word) : Option String := words.findSome? Word.output?

/-- The number that a text is in decimal. -/
def decimal (text : String) : Nat := Nat.ofDigitChars 10 (text.toList.filter Char.isDigit) 0

/-- What some words say; the settings may say what they leave open. -/
def asked (words : List Word) : Preferences where
  input? := valueOf? .input words
  classIndex? := (valueOf? .classIndex words).map decimal
  target? := valueOf? .target words
  strict := decide (.flag .strict ∈ words)

/-- A job is what some words say. The order is made if it is asked for, even when an output is
named; otherwise one is. -/
structure Says (words : List Word) (job : Job) : Prop where
  preferences : job.preferences = asked words
  settings : job.settings? = valueOf? .settings words
  order : .flag .orderOnly ∈ words → job.product = .order (decide (.flag .json ∈ words))
  resources : .flag .orderOnly ∉ words →
    ∃ output, outputOf? words = some output ∧ job.product = .resources output

theorem valueOf?_concat (p : Parameter) (words : List Word) (word : Word) :
    valueOf? p (words ++ [word]) = (valueOf? p words).or (word.valueOf? p) := by
  simp [valueOf?, List.findSome?_append]

theorem outputOf?_concat (words : List Word) (word : Word) :
    outputOf? (words ++ [word]) = (outputOf? words).or word.output? := by
  simp [outputOf?, List.findSome?_append]

namespace Arguments

/-! ### Indices -/

theorem hexDigit?_of_isDigit {c : Char} (h : c.isDigit) :
    Numeral.hexDigit? c = some (c.toNat - '0'.toNat) := by
  simp only [Char.isDigit, Bool.and_eq_true, decide_eq_true_eq] at h
  exact if_pos h

theorem foldlM_hexDigit? {digits : List Char} (h : ∀ c ∈ digits, c.isDigit) (n : Nat) :
    digits.foldlM (fun n c => (n * 10 + ·) <$> Numeral.hexDigit? c) n =
      some (Nat.ofDigitChars 10 digits n) := by
  induction digits generalizing n with
  | nil => rfl
  | cons c digits ih =>
    rw [List.foldlM_cons, hexDigit?_of_isDigit (h c List.mem_cons_self), Nat.ofDigitChars,
      List.foldl_cons, Nat.mul_comm 10]
    exact ih (fun d hd => h d (List.mem_cons_of_mem c hd)) _

theorem eq_ofDigitChars {digits : List Char} {n : Nat}
    (h : (if digits.isEmpty || !digits.all Char.isDigit then none
      else (Numeral.value? 10 digits).filter (· < Nat.pow 2 64)) = some n) :
    n = Nat.ofDigitChars 10 (digits.filter Char.isDigit) 0 := by
  split at h
  · cases h
  · rename_i hdigits
    rw [Bool.or_eq_true, not_or, Bool.not_eq_true', Bool.not_eq_false] at hdigits
    have hall : ∀ c ∈ digits, c.isDigit := List.all_eq_true.1 hdigits.2
    rw [Numeral.value?, foldlM_hexDigit? hall] at h
    rw [List.filter_eq_self.2 hall]
    exact (Option.some.inj (Option.filter_eq_some_iff.1 h).1).symm

theorem eq_decimal_of_index? {text : String} {n : Nat} (h : index? text = some n) :
    n = decimal text := by
  unfold index? at h
  simp only at h
  rw [decimal]
  split at h
  · rename_i rest htext
    have hplus : ('+' :: rest).filter Char.isDigit = rest.filter Char.isDigit := rfl
    rw [htext, hplus]
    exact eq_ofDigitChars h
  · exact eq_ofDigitChars h

/-! ### What has been said -/

/-- What has been said with some words. -/
def ofWords (words : List Word) : Arguments where
  preferences := asked words
  settings? := valueOf? .settings words
  orderOnly := decide (.flag .orderOnly ∈ words)
  json := decide (.flag .json ∈ words)
  output? := outputOf? words

variable {words : List Word} {word : Word} {b : Arguments} {job : Job}

theorem ofWords_concat (words : List Word) (word : Word) :
    ofWords (words ++ [word]) =
      { preferences :=
          { input? := (valueOf? .input words).or (word.valueOf? .input)
            classIndex? :=
              ((valueOf? .classIndex words).or (word.valueOf? .classIndex)).map decimal
            target? := (valueOf? .target words).or (word.valueOf? .target)
            strict := decide (.flag .strict ∈ words) || decide (.flag .strict = word) }
        settings? := (valueOf? .settings words).or (word.valueOf? .settings)
        orderOnly := decide (.flag .orderOnly ∈ words) || decide (.flag .orderOnly = word)
        json := decide (.flag .json ∈ words) || decide (.flag .json = word)
        output? := (outputOf? words).or word.output? } := by
  simp [ofWords, asked, valueOf?_concat, outputOf?_concat, List.mem_append]

/-- A word that can be said is said beside those before it. -/
theorem say_ofWords (h : (ofWords words).say word = some b) : b = ofWords (words ++ [word]) := by
  rw [ofWords_concat]
  cases word with
  | parameter p value =>
    -- A parameter that can be given a value had none.
    cases p with
    | input | target =>
      obtain ⟨hopen, h⟩ := Option.ite_none_left_eq_some.1 h
      have hnone : valueOf? _ words = none := Option.not_isSome_iff_eq_none.1 hopen
      cases h
      simp [ofWords, asked, hnone]
    | classIndex =>
      obtain ⟨hopen, h⟩ := Option.ite_none_left_eq_some.1 h
      have hnone : valueOf? .classIndex words = none :=
        Option.map_eq_none_iff.1 (Option.not_isSome_iff_eq_none.1 hopen)
      obtain ⟨_, hvalue, rfl⟩ := Option.map_eq_some_iff.1 h
      obtain ⟨n, hn, hvalue⟩ := Option.bind_eq_some_iff.1 hvalue
      cases hvalue
      simp [ofWords, asked, hnone, eq_decimal_of_index? hn]
    | settings =>
      obtain ⟨hopen, h⟩ := Option.ite_none_left_eq_some.1 h
      rw [Bool.or_eq_true, not_or] at hopen
      have hnone : valueOf? .settings words = none := Option.not_isSome_iff_eq_none.1 hopen.1
      cases h
      simp [ofWords, asked, hnone]
  | flag f =>
    cases f with
    | strict | orderOnly | json =>
      obtain ⟨-, h⟩ := Option.ite_none_left_eq_some.1 h
      cases h
      simp [ofWords, asked]
    | verbose =>
      cases h
      simp [ofWords, asked]
  | output name =>
    obtain ⟨hopen, h⟩ := Option.ite_none_left_eq_some.1 h
    have hnone : outputOf? words = none := Option.not_isSome_iff_eq_none.1 hopen
    cases h
    simp [ofWords, asked, hnone]

theorem foldlM_say (h : words.foldlM say empty = some b) : b = ofWords words := by
  induction words using List.reverseRecOn generalizing b with
  | nil =>
    cases h
    rfl
  | append_singleton words word ih =>
    rw [List.foldlM_append] at h
    obtain ⟨a, ha, h⟩ := Option.bind_eq_some_iff.1 h
    rw [ih ha, List.foldlM_cons] at h
    obtain ⟨c, hc, h⟩ := Option.bind_eq_some_iff.1 h
    cases h
    exact say_ofWords hc

theorem says_of_request? (h : (ofWords words).request? = some (.run job)) : Says words job := by
  obtain ⟨product, hproduct, h⟩ := Option.map_eq_some_iff.1 h
  cases h
  unfold product? at hproduct
  split at hproduct
  · rename_i horder
    have hmem : .flag .orderOnly ∈ words := of_decide_eq_true horder
    cases hproduct
    exact ⟨rfl, rfl, fun _ => rfl, fun hnot => absurd hmem hnot⟩
  · rename_i horder
    have hnot : .flag .orderOnly ∉ words := fun hmem => horder (decide_eq_true hmem)
    obtain ⟨-, hproduct⟩ := Option.ite_none_left_eq_some.1 hproduct
    obtain ⟨output, houtput, rfl⟩ := Option.map_eq_some_iff.1 hproduct
    exact ⟨rfl, rfl, fun hmem => absurd hmem hnot, fun _ => ⟨output, houtput, rfl⟩⟩

end Arguments

/-- A command line that asks for a run is spelled, and the run is what its words say. -/
theorem says_of_ofArguments? {arguments : List String} {job : Job}
    (h : Request.ofArguments? arguments = some (.run job)) :
    IsSpelled arguments ∧ ∀ words, Spells arguments words → Says words job := by
  refine ⟨Arguments.isSpelled_of_readAll h, fun words hwords => ?_⟩
  rw [Request.ofArguments?, Arguments.readAll_of_spells hwords] at h
  obtain ⟨b, hsaid, h⟩ := Option.bind_eq_some_iff.1 h
  rw [Arguments.foldlM_say hsaid] at h
  exact Arguments.says_of_request? h

end PackedMovie.Command
