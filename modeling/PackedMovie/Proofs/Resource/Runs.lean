import PackedMovie.Resource.Chain

/-!
# Chains as runs of instructions

A chain is the longest run of call units, with additions between and behind them, from the first
place where a unit begins. Said in this way, chains need no cursor. Every body falls apart into
chains in one way, which is the way the search goes through it.

Main statement: `isSplit_iff`.
-/
namespace PackedMovie.Resource.Chain

open PackedMovie.Code (Instruction Opcode)

/-! ### What a chain is -/

/-- A push of the object itself with a property call behind it. A call that names no property counts
as one of the property zero. -/
inductive IsUnit : List Instruction → CallUnit → Prop where
  | mk {push call : Instruction} (hpush : push.opcode = .getLocal0)
      (hcall : call.opcode = .callProperty) :
      IsUnit [push, call] ⟨(call.operands[0]?).getD 0, call.address⟩

def BeginsUnit (is : List Instruction) : Prop := ∃ code unit, IsUnit code unit ∧ code <+: is

def AllAdds (is : List Instruction) : Prop := ∀ i ∈ is, i.opcode = .add

/-- Units with any number of additions behind each. -/
inductive IsRun : List Instruction → List CallUnit → Prop where
  | last {code adds : List Instruction} {unit : CallUnit} (hunit : IsUnit code unit)
      (hadds : AllAdds adds) : IsRun (code ++ adds) [unit]
  | more {code adds run : List Instruction} {unit : CallUnit} {units : List CallUnit}
      (hunit : IsUnit code unit) (hadds : AllAdds adds) (hrun : IsRun run units) :
      IsRun (code ++ adds ++ run) (unit :: units)

/-- The chains of a body: up to the first unit nothing counts, from there on the longest run does,
and what is behind it falls apart in the same way. -/
inductive IsSplit : List Instruction → List (List CallUnit) → Prop where
  | none {is : List Instruction} (hnone : ∀ tail, tail <:+ is → ¬ BeginsUnit tail) : IsSplit is []
  | chain {gap run rest : List Instruction} {units : List CallUnit} {chains : List (List CallUnit)}
      (hfirst : ∀ tail, tail <:+ gap ++ (run ++ rest) → BeginsUnit tail →
        tail.length ≤ (run ++ rest).length)
      (hrun : IsRun run units)
      (hlongest : ∀ longer others, IsRun longer others → longer <+: run ++ rest →
        longer.length ≤ run.length)
      (hrest : IsSplit rest chains) : IsSplit (gap ++ (run ++ rest)) (units :: chains)

/-! ### Units -/

theorem unitAt?_eq_some_iff {is rest : List Instruction} {unit : CallUnit} :
    unitAt? is = some (unit, rest) ↔ ∃ code, IsUnit code unit ∧ is = code ++ rest := by
  constructor
  · intro h
    unfold unitAt? at h
    split at h
    · rename_i push call rest'
      split at h
      · rename_i hop
        cases h
        exact ⟨[push, call], IsUnit.mk hop.1 hop.2, rfl⟩
      · cases h
    · cases h
  · rintro ⟨code, ⟨hpush, hcall⟩, rfl⟩
    simp [unitAt?, hpush, hcall, Instruction.firstOperand, Instruction.operand?]

theorem atUnit_iff {is : List Instruction} : atUnit is = true ↔ BeginsUnit is := by
  constructor
  · intro h
    obtain ⟨⟨unit, rest⟩, hunit⟩ := Option.isSome_iff_exists.1 h
    obtain ⟨code, hcode, rfl⟩ := unitAt?_eq_some_iff.1 hunit
    exact ⟨code, unit, hcode, List.prefix_append code rest⟩
  · rintro ⟨code, unit, hcode, rest, rfl⟩
    rw [atUnit, unitAt?_eq_some_iff.2 ⟨code, hcode, rfl⟩]
    rfl

theorem dropWhile_unit {code : List Instruction} {unit : CallUnit} (h : IsUnit code unit)
    (rest : List Instruction) : (code ++ rest).dropWhile isAdd = code ++ rest := by
  obtain ⟨hpush, _⟩ := h
  simp [isAdd, hpush]

theorem dropWhile_adds {adds : List Instruction} (h : AllAdds adds) (rest : List Instruction) :
    (adds ++ rest).dropWhile isAdd = rest.dropWhile isAdd :=
  List.dropWhile_append_of_pos fun i hi => by simp [isAdd, h i hi]

theorem allAdds_takeWhile (is : List Instruction) : AllAdds (is.takeWhile isAdd) := by
  intro i hi
  have hadd := List.all_eq_true.1 List.all_takeWhile i hi
  exact eq_of_beq hadd

theorem nextUnit_adds {adds : List Instruction} (h : AllAdds adds) (rest : List Instruction) :
    nextUnit (adds ++ rest) = nextUnit rest := by
  unfold nextUnit
  rw [dropWhile_adds h]

theorem nextUnit_unit {code : List Instruction} {unit : CallUnit} (h : IsUnit code unit)
    (rest : List Instruction) : nextUnit (code ++ rest) = (some unit, rest) := by
  unfold nextUnit
  rw [dropWhile_unit h, unitAt?_eq_some_iff.2 ⟨code, h, rfl⟩]

theorem nextUnit_eq_some {is rest : List Instruction} {unit : CallUnit}
    (h : nextUnit is = (some unit, rest)) :
    ∃ adds code, AllAdds adds ∧ IsUnit code unit ∧ is = adds ++ (code ++ rest) := by
  unfold nextUnit at h
  split at h
  · rename_i hunit
    cases h
    obtain ⟨code, hcode, htail⟩ := unitAt?_eq_some_iff.1 hunit
    refine ⟨is.takeWhile isAdd, code, allAdds_takeWhile is, hcode, ?_⟩
    rw [← htail, List.takeWhile_append_dropWhile]
  · cases h

theorem nextUnit_eq_none {is rest : List Instruction} (h : nextUnit is = (none, rest)) :
    ∃ adds, AllAdds adds ∧ is = adds ++ rest := by
  unfold nextUnit at h
  split at h
  · cases h
  · cases h
    exact ⟨is.takeWhile isAdd, allAdds_takeWhile is, (List.takeWhile_append_dropWhile).symm⟩

theorem nextUnit_rest_of_none {is rest : List Instruction} (h : nextUnit is = (none, rest)) :
    nextUnit rest = (none, rest) := by
  obtain ⟨adds, hadds, his⟩ := nextUnit_eq_none h
  rw [his, nextUnit_adds hadds] at h
  exact h

/-! ### The units of a run -/

theorem units_of_some {is rest : List Instruction} {unit : CallUnit}
    (h : nextUnit is = (some unit, rest)) :
    units is = (unit :: (units rest).1, (units rest).2) := by
  rw [units]
  split
  · rename_i hsome
    rw [h] at hsome ⊢
    cases hsome
    rfl
  · rename_i hnone
    rw [h] at hnone
    cases hnone

theorem units_of_none {is rest : List Instruction} (h : nextUnit is = (none, rest)) :
    units is = ([], rest) := by
  rw [units]
  split
  · rename_i hsome
    rw [h] at hsome
    cases hsome
  · rw [h]

theorem units_of_nextUnit_eq {is others : List Instruction} (h : nextUnit is = nextUnit others) :
    units is = units others := by
  cases hnext : nextUnit others with
  | mk unit? rest =>
    rw [hnext] at h
    cases unit? with
    | none => rw [units_of_none h, units_of_none hnext]
    | some unit => rw [units_of_some h, units_of_some hnext]

theorem units_adds {adds : List Instruction} (h : AllAdds adds) (rest : List Instruction) :
    units (adds ++ rest) = units rest := units_of_nextUnit_eq (nextUnit_adds h rest)

/-- The walk over a chain takes every run that it meets. -/
theorem units_run {run : List Instruction} {us : List CallUnit} (h : IsRun run us)
    (rest : List Instruction) :
    units (run ++ rest) = (us ++ (units rest).1, (units rest).2) := by
  induction h with
  | @last code adds unit hunit hadds =>
    rw [List.append_assoc, units_of_some (nextUnit_unit hunit _), units_adds hadds]
    rfl
  | @more code adds run unit us hunit hadds _ ih =>
    rw [List.append_assoc, List.append_assoc, units_of_some (nextUnit_unit hunit _),
      units_adds hadds, ih]
    rfl

/-- Behind a unit the walk passes over additions, or over additions and a run. -/
theorem units_spec (is : List Instruction) :
    (∃ adds, AllAdds adds ∧ is = adds ++ (units is).2 ∧ (units is).1 = []) ∨
      ∃ adds run, AllAdds adds ∧ IsRun run (units is).1 ∧ is = adds ++ (run ++ (units is).2) := by
  fun_induction units is with
  | case1 is unit hsome r ih =>
    obtain ⟨adds, code, hadds, hunit, his⟩ := nextUnit_eq_some (Prod.ext hsome rfl)
    right
    rcases ih with ⟨adds', hadds', hrest, hnil⟩ | ⟨adds', run, hadds', hrun, hrest⟩
    · refine ⟨adds, code ++ adds', hadds, ?_, ?_⟩
      · rw [hnil]
        exact IsRun.last hunit hadds'
      · rw [List.append_assoc, ← hrest]
        exact his
    · refine ⟨adds, code ++ adds' ++ run, hadds, IsRun.more hunit hadds' hrun, ?_⟩
      rw [List.append_assoc, List.append_assoc, ← hrest]
      exact his
  | case2 is hnone =>
    left
    obtain ⟨adds, hadds, his⟩ := nextUnit_eq_none (Prod.ext hnone rfl)
    exact ⟨adds, hadds, his, rfl⟩

theorem exists_run {is : List Instruction} (h : atUnit is = true) :
    ∃ run, IsRun run (units is).1 ∧ is = run ++ (units is).2 := by
  obtain ⟨⟨unit, rest⟩, hunit⟩ := Option.isSome_iff_exists.1 h
  obtain ⟨code, hcode, rfl⟩ := unitAt?_eq_some_iff.1 hunit
  rw [units_of_some (nextUnit_unit hcode rest)]
  rcases units_spec rest with ⟨adds, hadds, hrest, hnil⟩ | ⟨adds, run, hadds, hrun, hrest⟩
  · refine ⟨code ++ adds, ?_, ?_⟩
    · rw [hnil]
      exact IsRun.last hcode hadds
    · rw [List.append_assoc, ← hrest]
  · refine ⟨code ++ adds ++ run, IsRun.more hcode hadds hrun, ?_⟩
    rw [List.append_assoc, List.append_assoc, ← hrest]

/-- No run is longer than the walk. -/
theorem run_length_le {is longer : List Instruction} {others : List CallUnit}
    (h : IsRun longer others) (hpre : longer <+: is) :
    longer.length + (units is).2.length ≤ is.length := by
  obtain ⟨rest, rfl⟩ := hpre
  rw [units_run h, List.length_append]
  exact Nat.add_le_add_left (units_length_le rest) longer.length

theorem IsRun.length_pos {run : List Instruction} {us : List CallUnit} (h : IsRun run us) :
    0 < run.length := by
  cases h with
  | last hunit _ =>
    cases hunit
    simp
  | more hunit _ _ =>
    cases hunit
    simp

theorem IsRun.beginsUnit {run : List Instruction} {us : List CallUnit} (h : IsRun run us)
    (rest : List Instruction) : BeginsUnit (run ++ rest) := by
  cases h with
  | last hunit _ =>
    rw [List.append_assoc]
    exact ⟨_, _, hunit, List.prefix_append _ _⟩
  | more hunit _ _ =>
    rw [List.append_assoc, List.append_assoc]
    exact ⟨_, _, hunit, List.prefix_append _ _⟩

/-- A walk that gets no further has met nothing. -/
theorem units_of_length_le {is : List Instruction} (h : is.length ≤ (units is).2.length) :
    units is = ([], is) := by
  rcases units_spec is with ⟨adds, _, his, hnil⟩ | ⟨adds, run, _, hrun, his⟩
  · have hlength := congrArg List.length his
    rw [List.length_append] at hlength
    have hadds : adds = [] := List.length_eq_zero_iff.1 (by omega)
    rw [hadds, List.nil_append] at his
    exact Prod.ext hnil his.symm
  · have hlength := congrArg List.length his
    rw [List.length_append, List.length_append] at hlength
    have hrun' := hrun.length_pos
    omega

/-- The longest run is what the walk passes over. -/
theorem units_longest {run rest : List Instruction} {us : List CallUnit} (h : IsRun run us)
    (hlongest : ∀ longer others, IsRun longer others → longer <+: run ++ rest →
      longer.length ≤ run.length) : units (run ++ rest) = (us, rest) := by
  obtain ⟨whole, hwhole, his⟩ := exists_run (atUnit_iff.2 (h.beginsUnit rest))
  have hle := hlongest whole _ hwhole ⟨_, his.symm⟩
  have hlength := congrArg List.length his
  rw [units_run h, List.length_append, List.length_append] at hlength
  have hrest : units rest = ([], rest) := units_of_length_le (by simp only at hlength; omega)
  rw [units_run h, hrest, List.append_nil]

/-! ### The split -/

theorem suffix_seekUnit {is tail : List Instruction} (hsuffix : tail <:+ is)
    (h : atUnit tail = true) : tail <:+ seekUnit is := by
  induction is with
  | nil => exact hsuffix
  | cons i rest ih =>
    rw [seekUnit]
    split
    · exact hsuffix
    · rename_i hunit
      rcases List.suffix_cons_iff.1 hsuffix with rfl | hrest
      · exact absurd h hunit
      · exact ih hrest

theorem seekUnit_suffix (is : List Instruction) : seekUnit is <:+ is := by
  induction is with
  | nil => exact List.suffix_refl []
  | cons i rest ih =>
    rw [seekUnit]
    split
    · exact List.suffix_refl (i :: rest)
    · exact ih.trans (List.suffix_cons i rest)

theorem seekUnit_adds {adds : List Instruction} (h : AllAdds adds) (rest : List Instruction) :
    seekUnit (adds ++ rest) = seekUnit rest := by
  induction adds with
  | nil => rfl
  | cons i adds ih =>
    have hi : i.opcode = .add := h i List.mem_cons_self
    have hunit : ¬ atUnit (i :: (adds ++ rest)) = true := by
      intro hunit
      obtain ⟨_, _, ⟨hpush, _⟩, _, hcode⟩ := atUnit_iff.1 hunit
      rw [(List.cons.inj hcode).1, hi] at hpush
      cases hpush
    rw [List.cons_append, seekUnit, if_neg hunit]
    exact ih fun j hj => h j (List.mem_cons_of_mem i hj)

/-- Where the walk still meets a unit, the search stays in the same chain. -/
theorem units_seekUnit {is : List Instruction} (h : (units is).1 ≠ []) :
    units (seekUnit is) = units is := by
  rcases units_spec is with ⟨_, _, _, hnil⟩ | ⟨adds, run, hadds, hrun, his⟩
  · exact absurd hnil h
  · have hunit := atUnit_iff.2 (hrun.beginsUnit (units is).2)
    have hseek : seekUnit is = run ++ (units is).2 := by
      rw [his, seekUnit_adds hadds, ← his]
      exact seekUnit_of_atUnit hunit
    rw [hseek, ← units_adds hadds, ← his]

/-- Where it meets none, the search goes on behind the chain. -/
theorem seekUnit_of_units_nil {is : List Instruction} (h : (units is).1 = []) :
    seekUnit is = seekUnit (units is).2 := by
  rcases units_spec is with ⟨adds, hadds, his, _⟩ | ⟨_, run, _, hrun, _⟩
  · have hseek := seekUnit_adds hadds (units is).2
    rwa [← his] at hseek
  · rw [h] at hrun
    cases hrun

theorem seekUnit_eq_nil {is : List Instruction}
    (hnone : ∀ tail, tail <:+ is → ¬ BeginsUnit tail) : seekUnit is = [] := by
  rcases atUnit_seekUnit is with h | h
  · exact h
  · exact absurd (atUnit_iff.1 h) (hnone _ (seekUnit_suffix is))

theorem seekUnit_eq {gap here : List Instruction} (h : BeginsUnit here)
    (hfirst : ∀ tail, tail <:+ gap ++ here → BeginsUnit tail → tail.length ≤ here.length) :
    seekUnit (gap ++ here) = here := by
  have hsuffix := suffix_seekUnit (List.suffix_append gap here) (atUnit_iff.2 h)
  rcases atUnit_seekUnit (gap ++ here) with hnil | hunit
  · rw [hnil] at hsuffix ⊢
    exact (List.suffix_nil.1 hsuffix).symm
  · have hle := hfirst _ (seekUnit_suffix _) (atUnit_iff.1 hunit)
    exact (hsuffix.eq_of_length_le hle).symm

theorem units_length_lt {is : List Instruction} (h : atUnit is = true) :
    (units is).2.length < is.length := by
  obtain ⟨run, hrun, his⟩ := exists_run h
  have hpos := hrun.length_pos
  have hlength := congrArg List.length his
  rw [List.length_append] at hlength
  omega

/-- The chains in the order in which the search meets them. -/
def split (is : List Instruction) : List (List CallUnit) :=
  if _h : atUnit (seekUnit is) = true then
    (units (seekUnit is)).1 :: split (units (seekUnit is)).2
  else []
termination_by is.length
decreasing_by
  exact Nat.lt_of_lt_of_le (units_length_lt _h) (seekUnit_length_le is)

theorem isSplit_split (is : List Instruction) : IsSplit is (split is) := by
  fun_induction split is with
  | case1 is hunit ih =>
    obtain ⟨run, hrun, hseek⟩ := exists_run hunit
    obtain ⟨gap, his⟩ := seekUnit_suffix is
    have hsplit : IsSplit (gap ++ (run ++ (units (seekUnit is)).2))
        ((units (seekUnit is)).1 :: split (units (seekUnit is)).2) := by
      refine IsSplit.chain ?_ hrun ?_ ih
      · intro tail htail hbegins
        rw [← hseek] at htail ⊢
        rw [his] at htail
        exact (suffix_seekUnit htail (atUnit_iff.2 hbegins)).length_le
      · intro longer others hlonger hpre
        rw [← hseek] at hpre
        have hle := run_length_le hlonger hpre
        have hlength := congrArg List.length hseek
        rw [List.length_append] at hlength
        omega
    rwa [← hseek, his] at hsplit
  | case2 is hunit =>
    refine IsSplit.none fun tail htail hbegins => hunit ?_
    have hsuffix := suffix_seekUnit htail (atUnit_iff.2 hbegins)
    rcases atUnit_seekUnit is with hnil | h
    · rw [hnil] at hsuffix
      obtain ⟨code, unit, ⟨_, _⟩, hpre⟩ := hbegins
      rw [List.suffix_nil.1 hsuffix] at hpre
      simp at hpre
    · exact h

/-- A body falls apart in one way only. -/
theorem isSplit_iff {is : List Instruction} {chains : List (List CallUnit)} :
    IsSplit is chains ↔ chains = split is := by
  constructor
  · intro h
    induction h with
    | none hnone =>
      rw [split, dif_neg]
      rw [seekUnit_eq_nil hnone]
      decide
    | @chain gap run rest us chains hfirst hrun hlongest _ ih =>
      have hseek := seekUnit_eq (hrun.beginsUnit rest) hfirst
      rw [split, hseek, dif_pos (atUnit_iff.2 (hrun.beginsUnit rest)), units_longest hrun hlongest,
        ← ih]
  · rintro rfl
    exact isSplit_split is

end PackedMovie.Resource.Chain
