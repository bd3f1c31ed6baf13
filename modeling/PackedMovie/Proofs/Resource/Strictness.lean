import Mathlib.Data.List.Infix
import PackedMovie.Proofs.Resource.Names

/-!
# Strict and lenient search

A strict search for names does what a lenient one does, until a name calls what is no accessor;
there it stops with this call. Calls in front of names do not matter to it, nor do those in chains
that do not begin with the target.

Main statement: `resolve_strict_lenient`.
-/
namespace PackedMovie.Resource

open PackedMovie.Code (Instruction Opcode)

namespace Chain

/-! ### Calls -/

/-- A unit stands somewhere among the instructions, whether or not a chain is read there. -/
def Calls (is : List Instruction) (unit : CallUnit) : Prop :=
  ∃ code, IsUnit code unit ∧ code <:+: is

/-- Every unit among the instructions calls an accessor. -/
def CallsMapped (accessors : Accessors) (is : List Instruction) : Prop :=
  ∀ unit, Calls is unit → (accessors.get? unit.name).isSome

theorem calls_iff {is : List Instruction} {unit : CallUnit} :
    Calls is unit ↔ ∃ tail ∈ is.tails, ∃ rest, unitAt? tail = some (unit, rest) := by
  constructor
  · rintro ⟨code, hcode, before, rest, rfl⟩
    refine ⟨code ++ rest, ?_, rest, unitAt?_eq_some_iff.2 ⟨code, hcode, rfl⟩⟩
    rw [List.mem_tails, List.append_assoc]
    exact List.suffix_append before (code ++ rest)
  · rintro ⟨tail, htail, rest, hunit⟩
    obtain ⟨code, hcode, rfl⟩ := unitAt?_eq_some_iff.1 hunit
    obtain ⟨before, rfl⟩ := (List.mem_tails _ is).1 htail
    exact ⟨code, hcode, before, rest, List.append_assoc before code rest⟩

instance (accessors : Accessors) (is : List Instruction) :
    Decidable (CallsMapped accessors is) :=
  decidable_of_iff
    (∀ tail ∈ is.tails, ∀ found ∈ unitAt? tail, (accessors.get? found.1.name).isSome) <| by
    constructor
    · intro h unit hcalls
      obtain ⟨tail, htail, rest, hunit⟩ := calls_iff.1 hcalls
      exact h tail htail (unit, rest) hunit
    · rintro h tail htail ⟨unit, rest⟩ hunit
      exact h unit (calls_iff.2 ⟨tail, htail, rest, hunit⟩)

theorem Calls.mono {part is : List Instruction} {unit : CallUnit} (h : Calls part unit)
    (hpart : part <:+ is) : Calls is unit := by
  obtain ⟨code, hcode, hinfix⟩ := h
  exact ⟨code, hcode, hinfix.trans hpart.isInfix⟩

theorem calls_of_nextUnit {is rest : List Instruction} {unit : CallUnit}
    (h : nextUnit is = (some unit, rest)) : Calls is unit := by
  obtain ⟨adds, code, -, hcode, rfl⟩ := nextUnit_eq_some h
  exact ⟨code, hcode, adds, rest, List.append_assoc adds code rest⟩

/-! ### What is left is a rest -/

theorem nextUnit_suffix {is rest : List Instruction} {unit? : Option CallUnit}
    (h : nextUnit is = (unit?, rest)) : rest <:+ is := by
  cases unit? with
  | none =>
    obtain ⟨adds, -, rfl⟩ := nextUnit_eq_none h
    exact List.suffix_append adds rest
  | some unit =>
    obtain ⟨adds, code, -, -, rfl⟩ := nextUnit_eq_some h
    rw [← List.append_assoc]
    exact List.suffix_append (adds ++ code) rest

theorem units_suffix (is : List Instruction) : (units is).2 <:+ is := by
  fun_induction units is with
  | case1 is _ _ _ ih => exact ih.trans (nextUnit_suffix rfl)
  | case2 is _ => exact nextUnit_suffix rfl

theorem matchTarget_suffix (accessors : Accessors) (target : Bytes) (is : List Instruction) :
    (matchTarget accessors target is).2 <:+ is := by
  fun_induction matchTarget accessors target is with
  | case1 is => exact List.suffix_refl is
  | case2 _ _ is unit rest hnext _ ih => exact ih.trans (nextUnit_suffix hnext)
  | case3 _ _ is unit rest hnext _ => exact (units_suffix rest).trans (nextUnit_suffix hnext)
  | case4 _ _ is rest hnext => exact (units_suffix rest).trans (nextUnit_suffix hnext)

/-! ### Refused calls -/

/-- The error of a strict search that meets a call of what is no accessor. -/
def Refuses (accessors : Accessors) (is : List Instruction) (e : Error) : Prop :=
  ∃ unit, Calls is unit ∧ accessors.get? unit.name = none ∧
    e = .unmappedAccessor unit.name unit.address

section

variable {accessors : Accessors}

theorem Refuses.mono {part is : List Instruction} {e : Error} (h : Refuses accessors part e)
    (hpart : part <:+ is) : Refuses accessors is e := by
  obtain ⟨unit, hcalls, hnone, he⟩ := h
  exact ⟨unit, hcalls.mono hpart, hnone, he⟩

theorem not_refuses {is : List Instruction} (h : CallsMapped accessors is) (e : Error) :
    ¬ Refuses accessors is e := by
  rintro ⟨unit, hcalls, hnone, -⟩
  have hmapped := h unit hcalls
  rw [hnone] at hmapped
  cases hmapped

/-! ### One name -/

/-- What a search does at the next unit, or without one. -/
theorem spell_nextUnit (strict : Bool) (accessors : Accessors) (is : List Instruction) :
    spell strict accessors is =
      match nextUnit is with
      | (none, rest) => (.ok [], rest)
      | (some unit, rest) =>
        match accessors.get? unit.name with
        | some byte =>
          ((byte :: ·) <$> (spell strict accessors rest).1, (spell strict accessors rest).2)
        | none =>
          if strict then (.error (.unmappedAccessor unit.name unit.address), rest)
          else spell strict accessors rest := by
  rw [spell]
  obtain ⟨unit?, rest⟩ := nextUnit is
  cases unit? <;> rfl

theorem spell_lenient_or_refuses (accessors : Accessors) (is : List Instruction) :
    spell true accessors is = spell false accessors is ∨
      ∃ e, Refuses accessors is e ∧ (spell true accessors is).1 = .error e := by
  fun_induction units is with
  | case1 is unit hsome _ ih =>
    have hnext : nextUnit is = (some unit, (nextUnit is).2) := Prod.ext hsome rfl
    rw [spell_nextUnit, spell_nextUnit, hnext]
    cases hbyte : accessors.get? unit.name with
    | none =>
      right
      simp only [hbyte]
      exact ⟨_, ⟨unit, calls_of_nextUnit hnext, hbyte, rfl⟩, rfl⟩
    | some byte =>
      simp only [hbyte]
      rcases ih with hsame | ⟨e, he, hstrict⟩
      · left
        rw [hsame]
      · right
        exact ⟨e, he.mono (nextUnit_suffix hnext), by rw [hstrict]; rfl⟩
  | case2 is hnone =>
    have hnext : nextUnit is = (none, (nextUnit is).2) := Prod.ext hnone rfl
    left
    rw [spell_nextUnit, spell_nextUnit, hnext]

end

end Chain

namespace Order

open PackedMovie.Resource.Chain

section

variable (target : Bytes) (accessors : Accessors)

theorem nameBytes_lenient_or_refuses (is : List Instruction) :
    let strict := Search.nameBytes ⟨target, true, accessors⟩ is
    strict = Search.nameBytes ⟨target, false, accessors⟩ is ∨
      ∃ e, Refuses accessors is e ∧ strict.1 = .error e := by
  intro strict
  rcases spell_lenient_or_refuses accessors (seekUnit is) with hsame | ⟨e, he, hstrict⟩
  · exact .inl hsame
  · exact .inr ⟨e, he.mono (seekUnit_suffix is), hstrict⟩

theorem nameBytes_suffix (is : List Instruction) :
    (Search.nameBytes ⟨target, false, accessors⟩ is).2 <:+ is := by
  have hspell : spell false accessors (seekUnit is) = _ :=
    spell_eq fun h => absurd h Bool.false_ne_true
  rw [Search.nameBytes, spellNext, hspell]
  exact (units_suffix _).trans (seekUnit_suffix is)

end

/-! ### All names -/

theorem namesFrom_of_matched {s : Search} {is : List Instruction}
    (hunit : atUnit (seekUnit is) = true)
    (hmatch : (matchTarget s.accessors s.target (seekUnit is)).1 = true) :
    namesFrom s is =
      let found := s.nameBytes (matchTarget s.accessors s.target (seekUnit is)).2
      found.1 >>= fun bytes =>
        nameText bytes >>= fun name => (name :: ·) <$> namesFrom s found.2 := by
  rw [namesFrom, dif_pos hunit]
  simp only [dif_pos hmatch]
  split
  · rename_i e he
    rw [he]
    rfl
  · rename_i bytes hbytes
    rw [hbytes]
    simp only [bind, Except.bind]
    split <;> rename_i htext <;> rw [htext]

theorem namesFrom_of_not_matched {s : Search} {is : List Instruction}
    (hunit : atUnit (seekUnit is) = true)
    (hmatch : ¬ (matchTarget s.accessors s.target (seekUnit is)).1 = true) :
    namesFrom s is = namesFrom s (matchTarget s.accessors s.target (seekUnit is)).2 := by
  rw [namesFrom, dif_pos hunit]
  simp only [dif_neg hmatch]

theorem namesFrom_of_no_unit {s : Search} {is : List Instruction}
    (hunit : ¬ atUnit (seekUnit is) = true) : namesFrom s is = .ok [] := by
  rw [namesFrom, dif_neg hunit]

/-- The strict outcome is the lenient one, or the refusal of a call among the instructions. -/
def Follows (accessors : Accessors) (is : List Instruction) {α : Type}
    (strict lenient : Except Error α) : Prop :=
  strict = lenient ∨ ∃ e, Refuses accessors is e ∧ strict = .error e

section

variable {accessors : Accessors} {is : List Instruction} {α β : Type}

theorem Follows.mono {part : List Instruction} {strict lenient : Except Error α}
    (h : Follows accessors part strict lenient) (hpart : part <:+ is) :
    Follows accessors is strict lenient := by
  rcases h with hsame | ⟨e, he, hstrict⟩
  · exact .inl hsame
  · exact .inr ⟨e, he.mono hpart, hstrict⟩

theorem Follows.bind {strict lenient : Except Error α} {f g : α → Except Error β}
    (h : Follows accessors is strict lenient) (hrest : ∀ a, Follows accessors is (f a) (g a)) :
    Follows accessors is (strict >>= f) (lenient >>= g) := by
  rcases h with rfl | ⟨e, he, rfl⟩
  · cases strict with
    | error e => exact .inl rfl
    | ok a => exact hrest a
  · exact .inr ⟨e, he, rfl⟩

theorem Follows.map {strict lenient : Except Error α} (f : α → β)
    (h : Follows accessors is strict lenient) :
    Follows accessors is (f <$> strict) (f <$> lenient) := by
  rcases h with rfl | ⟨e, he, rfl⟩
  · exact .inl rfl
  · exact .inr ⟨e, he, rfl⟩

end

section

variable {target : Bytes} {accessors : Accessors}

/-- The two searches go through the same places as long as neither has met a call that the strict
one refuses, and a name that is no text stops both. -/
theorem follows_namesFrom (is : List Instruction) :
    Follows accessors is (namesFrom ⟨target, true, accessors⟩ is)
      (namesFrom ⟨target, false, accessors⟩ is) := by
  -- Both go on from where a match or a name was left, so the induction is on how much is left.
  induction hlength : is.length using Nat.strong_induction_on generalizing is with
  | h length ih =>
    subst hlength
    by_cases hunit : atUnit (seekUnit is) = true
    · have hmatched :=
        (matchTarget_suffix accessors target (seekUnit is)).trans (seekUnit_suffix is)
      by_cases hmatch : (matchTarget accessors target (seekUnit is)).1 = true
      · have hshorter := length_afterName_lt ⟨target, false, accessors⟩ hunit
        rw [namesFrom_of_matched hunit hmatch, namesFrom_of_matched hunit hmatch]
        simp only at hshorter ⊢
        generalize (matchTarget accessors target (seekUnit is)).2 = after at hmatched hshorter ⊢
        have hsuffix := (nameBytes_suffix target accessors after).trans hmatched
        rcases nameBytes_lenient_or_refuses target accessors after with hsame | ⟨e, he, hstrict⟩
        · -- The bytes and the rest are those of the lenient search, and so is a fault in the text.
          rw [hsame]
          have hrest := ih _ (Nat.lt_of_lt_of_le hshorter (seekUnit_length_le is)) _ rfl
          exact Follows.bind (.inl rfl) fun bytes => Follows.bind (.inl rfl) fun name =>
            (hrest.mono hsuffix).map _
        · right
          exact ⟨e, he.mono hmatched, by rw [hstrict]; rfl⟩
      · have hshorter := length_afterMismatch_lt ⟨target, false, accessors⟩ hunit hmatch
        rw [namesFrom_of_not_matched hunit hmatch, namesFrom_of_not_matched hunit hmatch]
        have hrest := ih _ (Nat.lt_of_lt_of_le hshorter (seekUnit_length_le is)) _ rfl
        exact hrest.mono hmatched
    · left
      rw [namesFrom_of_no_unit hunit, namesFrom_of_no_unit hunit]

/-- Nothing but a name that is no text stops a lenient search. -/
theorem namesFrom_lenient (is : List Instruction) {e : Error}
    (h : namesFrom ⟨target, false, accessors⟩ is = .error e) : ∃ cause, e = .invalidName cause := by
  rw [namesFrom_eq ⟨target, false, accessors⟩ (fun h => absurd h Bool.false_ne_true)] at h
  generalize names target accessors (split is) = found at h
  induction found with
  | nil => cases h
  | cons bytes found ih =>
    cases htext : nameText bytes with
    | error e' =>
      rw [mapM_nameText_error htext] at h
      cases h
      unfold nameText at htext
      split at htext
      · cases htext
      · cases htext
        exact ⟨_, rfl⟩
    | ok name =>
      rw [mapM_nameText_ok htext] at h
      cases hrest : found.mapM nameText with
      | error e' =>
        rw [hrest] at h ih
        cases h
        exact ih rfl
      | ok order =>
        rw [hrest] at h
        cases h

end

/-! ### A constructor -/

/-- Everything behind the first call of the base constructor; nothing if there is none. -/
def behindSuper (is : List Instruction) : List Instruction :=
  (is.dropWhile (·.opcode != .constructSuper)).tail

theorem seekPast?_eq (op : Opcode) (is : List Instruction) :
    seekPast? op is = (is.dropWhile (·.opcode != op)).tail? := by
  induction is with
  | nil => rfl
  | cons i rest ih =>
    rw [seekPast?, List.dropWhile_cons]
    by_cases hop : i.opcode = op
    · rw [if_pos hop, if_neg (by simp [hop])]
      rfl
    · rw [if_neg hop, if_pos (by simp [hop]), ih]

theorem namesFrom_nil (s : Search) : namesFrom s [] = .ok [] := namesFrom_of_no_unit (by decide)

theorem resolve_eq_namesFrom (s : Search) (is : List Instruction) :
    resolve s is = namesFrom s (behindSuper is) := by
  rw [resolve, seekPast?_eq, behindSuper]
  cases is.dropWhile (·.opcode != .constructSuper) with
  | nil => exact (namesFrom_nil s).symm
  | cons i rest => rfl

/-- Where the strict search finds an order, the lenient one finds the same, and a name that is no
text stops both alike. The only other error of the strict search is a call behind the call of the base
constructor that has no accessor, so where every call there has one the two do not differ. -/
theorem resolve_strict_lenient (target : Bytes) (accessors : Accessors) (is : List Instruction) :
    let strict := resolve ⟨target, true, accessors⟩ is
    let lenient := resolve ⟨target, false, accessors⟩ is
    (match strict with
      | .ok order => lenient = .ok order
      | .error (.invalidName cause) => lenient = .error (.invalidName cause)
      | .error (.unmappedAccessor name address) =>
        accessors.get? name = none ∧ Calls (behindSuper is) ⟨name, address⟩
      | .error _ => False) ∧
      (CallsMapped accessors (behindSuper is) → strict = lenient) := by
  intro strict lenient
  have hstrict : strict = namesFrom ⟨target, true, accessors⟩ (behindSuper is) :=
    resolve_eq_namesFrom _ is
  have hlenient : lenient = namesFrom ⟨target, false, accessors⟩ (behindSuper is) :=
    resolve_eq_namesFrom _ is
  have hfollows : Follows accessors (behindSuper is) strict lenient := by
    rw [hstrict, hlenient]
    exact follows_namesFrom (behindSuper is)
  rcases hfollows with hsame | ⟨e, ⟨unit, hcalls, hnone, rfl⟩, hrefused⟩
  · refine ⟨?_, fun _ => hsame⟩
    rw [hsame]
    cases houtcome : lenient with
    | ok order => rfl
    | error e =>
      obtain ⟨cause, rfl⟩ := namesFrom_lenient (behindSuper is) (hlenient.symm.trans houtcome)
      rfl
  · rw [hrefused]
    refine ⟨⟨hnone, hcalls⟩, fun hmapped => ?_⟩
    exact absurd ⟨unit, hcalls, hnone, rfl⟩ (not_refuses hmapped _)

/-- The target is spelled by a call of 1, and 2 is the accessor of a letter. -/
def letters : Accessors := .ofList [(1, 0x77), (2, 0x61)]

/-- The base constructor is called, then the target is spelled, and behind it a name by calls of
some properties. -/
def spelling (properties : List UInt32) : List Instruction :=
  ⟨2, .constructSuper, [0]⟩ :: (1 :: properties).flatMap fun name =>
    [⟨4, .getLocal0, []⟩, ⟨5, .callProperty, [name, 0]⟩, ⟨8, .add, []⟩]

theorem resolve_strict_lenient_letters :
    (CallsMapped letters (behindSuper (spelling [2, 2])) ∧
        resolve ⟨[0x77], true, letters⟩ (spelling [2, 2]) = .ok ["aa"] ∧
        resolve ⟨[0x77], false, letters⟩ (spelling [2, 2]) = .ok ["aa"]) ∧
      resolve ⟨[0x77], true, letters⟩ (spelling [2, 9]) = .error (.unmappedAccessor 9 5) ∧
        letters.get? 9 = none ∧ Calls (behindSuper (spelling [2, 9])) ⟨9, 5⟩ := by
  have hmapped : CallsMapped letters (behindSuper (spelling [2, 2])) := by decide
  have hlenient : resolve ⟨[0x77], false, letters⟩ (spelling [2, 2]) = .ok ["aa"] := by
    decide +kernel
  have hrefused : resolve ⟨[0x77], true, letters⟩ (spelling [2, 9]) =
      .error (.unmappedAccessor 9 5) := by decide +kernel
  have hsame := (resolve_strict_lenient [0x77] letters (spelling [2, 2])).2 hmapped
  have hcall := (resolve_strict_lenient [0x77] letters (spelling [2, 9])).1
  rw [hrefused] at hcall
  exact ⟨⟨hmapped, hsame.trans hlenient, hlenient⟩, hrefused, hcall⟩

end Order
end PackedMovie.Resource
