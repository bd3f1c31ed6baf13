import PackedMovie.Proofs.Resource.Progress

/-!
# Walking by place

A walker holds what lies ahead of it. Another way to walk is to count the instructions behind, and to
look up each instruction by its place, where looking outside the list is a fault. From any place within
the list both ways come to the same, so looking up never faults.

Main statements: `nextUnit_placeOf`, `spell_placeOf`, `matchTarget_placeOf`.
-/
namespace PackedMovie.Resource

open PackedMovie.Code (Instruction Opcode)

namespace Places

/-! ### Steps by place -/

section

variable (is : List Instruction)

/-- There is nothing to look at outside the list; the fault is the place that was asked for. -/
def lookAt (place : Nat) : Except Nat Instruction :=
  match is[place]? with
  | some i => .ok i
  | none => .error place

def isAt (op : Opcode) (place : Nat) : Except Nat Bool :=
  if place < is.length then (fun i : Instruction => i.opcode == op) <$> lookAt is place
  else .ok false

def isUnitAt (place : Nat) : Except Nat Bool := do
  if ← isAt is .getLocal0 place then isAt is .callProperty (place + 1) else .ok false

def seekPast (op : Opcode) (place : Nat) : Except Nat (Bool × Nat) :=
  if _h : place < is.length then do
    let i ← lookAt is place
    if i.opcode = op then .ok (true, place + 1) else seekPast op (place + 1)
  else .ok (false, is.length)

def nextString (place : Nat) : Except Nat (Bool × Nat) :=
  if _h : place < is.length then do
    if ← isUnitAt is place then .ok (true, place) else nextString (place + 1)
  else .ok (false, place)

def pastAdds (place : Nat) : Except Nat Nat :=
  if _h : place < is.length then do
    let i ← lookAt is place
    if i.opcode = .add then pastAdds (place + 1) else .ok place
  else .ok place

/-- Where a unit is, its call is looked at once more. -/
def nextUnit (place : Nat) : Except Nat (Option CallUnit × Nat) := do
  let here ← pastAdds is place
  if ← isUnitAt is here then
    let call ← lookAt is (here + 1)
    .ok (some ⟨call.firstOperand, call.address⟩, here + 2)
  else .ok (none, here)

/-- The place of what lies ahead. -/
def placeOf (rest : List Instruction) : Nat := is.length - rest.length

end

section

variable {is rest : List Instruction} {i : Instruction}

theorem placeOf_lt (h : i :: rest <:+ is) : placeOf is (i :: rest) < is.length := by
  have hlength := h.length_le
  rw [List.length_cons] at hlength
  rw [placeOf, List.length_cons]
  omega

theorem placeOf_succ (h : i :: rest <:+ is) : placeOf is (i :: rest) + 1 = placeOf is rest := by
  have hlength := h.length_le
  rw [List.length_cons] at hlength
  rw [placeOf, placeOf, List.length_cons]
  omega

theorem placeOf_nil : placeOf is [] = is.length := rfl

theorem placeOf_drop {place : Nat} (h : place ≤ is.length) :
    placeOf is (is.drop place) = place := by
  rw [placeOf, List.length_drop]
  omega

theorem drop_placeOf (h : rest <:+ is) : is.drop (placeOf is rest) = rest :=
  (List.suffix_iff_eq_drop.1 h).symm

theorem suffix_of_cons (h : i :: rest <:+ is) : rest <:+ is := (List.suffix_cons i rest).trans h

theorem lookAt_placeOf (h : i :: rest <:+ is) : lookAt is (placeOf is (i :: rest)) = .ok i := by
  have hhead : is[placeOf is (i :: rest)]? = some i := by
    rw [← List.head?_drop, drop_placeOf h]
    rfl
  rw [lookAt, hhead]

theorem isAt_placeOf (op : Opcode) (h : rest <:+ is) :
    isAt is op (placeOf is rest) = .ok (rest.head?.any (·.opcode == op)) := by
  cases rest with
  | nil =>
    rw [isAt, placeOf_nil, if_neg (Nat.lt_irrefl _)]
    rfl
  | cons i rest =>
    rw [isAt, if_pos (placeOf_lt h), lookAt_placeOf h]
    rfl

theorem atUnit_cons (push : Instruction) (rest : List Instruction) :
    Chain.atUnit (push :: rest) =
      (push.opcode == .getLocal0 && rest.head?.any (·.opcode == .callProperty)) := by
  cases rest with
  | nil => simp [Chain.atUnit, Chain.unitAt?]
  | cons call rest =>
    by_cases hpush : push.opcode = .getLocal0 <;>
      by_cases hcall : call.opcode = .callProperty <;>
      simp [Chain.atUnit, Chain.unitAt?, hpush, hcall]

theorem isUnitAt_placeOf (h : rest <:+ is) :
    isUnitAt is (placeOf is rest) = .ok (Chain.atUnit rest) := by
  rw [isUnitAt, isAt_placeOf .getLocal0 h]
  cases rest with
  | nil => rfl
  | cons push rest =>
    rw [placeOf_succ h, isAt_placeOf .callProperty (suffix_of_cons h), atUnit_cons]
    cases hpush : push.opcode == .getLocal0 <;> simp [hpush, bind, Except.bind]

/-! ### What the steps come to -/

theorem seekPast_placeOf (op : Opcode) (h : rest <:+ is) :
    seekPast is op (placeOf is rest) =
      match Chain.seekPast? op rest with
      | some behind => .ok (true, placeOf is behind)
      | none => .ok (false, is.length) := by
  induction rest with
  | nil =>
    rw [seekPast, placeOf_nil, dif_neg (Nat.lt_irrefl _)]
    rfl
  | cons i rest ih =>
    rw [seekPast, dif_pos (placeOf_lt h), lookAt_placeOf h, placeOf_succ h, ih (suffix_of_cons h),
      Chain.seekPast?]
    by_cases hop : i.opcode = op <;> simp [hop, bind, Except.bind]

theorem nextString_placeOf (h : rest <:+ is) :
    nextString is (placeOf is rest) =
      .ok (!(Chain.seekUnit rest).isEmpty, placeOf is (Chain.seekUnit rest)) := by
  induction rest with
  | nil =>
    rw [nextString, placeOf_nil, dif_neg (Nat.lt_irrefl _)]
    rfl
  | cons i rest ih =>
    rw [nextString, dif_pos (placeOf_lt h), isUnitAt_placeOf h, placeOf_succ h,
      ih (suffix_of_cons h), Chain.seekUnit]
    cases hunit : Chain.atUnit (i :: rest) <;> simp [bind, Except.bind]

theorem pastAdds_placeOf (h : rest <:+ is) :
    pastAdds is (placeOf is rest) = .ok (placeOf is (rest.dropWhile Chain.isAdd)) := by
  induction rest with
  | nil =>
    rw [pastAdds, placeOf_nil, dif_neg (Nat.lt_irrefl _)]
    rfl
  | cons i rest ih =>
    rw [pastAdds, dif_pos (placeOf_lt h), lookAt_placeOf h, placeOf_succ h, ih (suffix_of_cons h),
      List.dropWhile_cons]
    by_cases hadd : i.opcode = .add <;> simp [Chain.isAdd, hadd, bind, Except.bind]

theorem nextUnit_placeOf (h : rest <:+ is) :
    nextUnit is (placeOf is rest) =
      .ok ((Chain.nextUnit rest).1, placeOf is (Chain.nextUnit rest).2) := by
  have hhere : rest.dropWhile Chain.isAdd <:+ is := (List.dropWhile_suffix _).trans h
  rw [nextUnit, pastAdds_placeOf h, Chain.nextUnit]
  generalize rest.dropWhile Chain.isAdd = here at hhere
  simp only [bind, Except.bind, isUnitAt_placeOf hhere, Chain.atUnit]
  cases hunit : Chain.unitAt? here with
  | none => rfl
  | some found =>
    obtain ⟨unit, behind⟩ := found
    obtain ⟨code, hcode, rfl⟩ := Chain.unitAt?_eq_some_iff.1 hunit
    cases hcode with
    | @mk push call hpush hcall =>
      have hpair : push :: call :: behind <:+ is := hhere
      have hbehind : call :: behind <:+ is := suffix_of_cons hpair
      simp only [Option.isSome_some, ↓reduceIte, List.cons_append, List.nil_append]
      rw [placeOf_succ hpair, lookAt_placeOf hbehind, ← placeOf_succ hbehind, ← placeOf_succ hpair]
      rfl

theorem nextUnit_lt {place next : Nat} {unit : CallUnit}
    (h : nextUnit is place = .ok (some unit, next)) : place < next ∧ next ≤ is.length := by
  by_cases hplace : place ≤ is.length
  · have hsuffix := List.drop_suffix place is
    rw [← placeOf_drop hplace, nextUnit_placeOf hsuffix] at h
    cases hunit : (Chain.nextUnit (is.drop place)).1 with
    | none => simp [hunit] at h
    | some found =>
      have hpassed := Chain.nextUnit_some_length hunit
      simp only [Except.ok.injEq, Prod.mk.injEq] at h
      rw [List.length_drop] at hpassed
      rw [← h.2, placeOf]
      omega
  · have hnone : isUnitAt is place = .ok false := by
      rw [isUnitAt, isAt, if_neg (by omega)]
      rfl
    rw [nextUnit, pastAdds, dif_neg (by omega)] at h
    simp only [bind, Except.bind, hnone] at h
    cases h

end

/-! ### Whole chains by place -/

section

variable (is : List Instruction)

def skip (place : Nat) : Except Nat Nat :=
  match _h : nextUnit is place with
  | .error outside => .error outside
  | .ok (some _, next) => skip next
  | .ok (none, next) => .ok next
termination_by is.length - place
decreasing_by
  have := nextUnit_lt _h
  omega

def spell (strict : Bool) (accessors : Accessors) (place : Nat) :
    Except Nat (Except Error Bytes × Nat) :=
  match _h : nextUnit is place with
  | .error outside => .error outside
  | .ok (none, next) => .ok (.ok [], next)
  | .ok (some unit, next) =>
    match accessors.get? unit.name with
    | some byte => (fun r => ((byte :: ·) <$> r.1, r.2)) <$> spell strict accessors next
    | none =>
      if strict then .ok (.error (.unmappedAccessor unit.name unit.address), next)
      else spell strict accessors next
termination_by is.length - place
decreasing_by
  all_goals
    have := nextUnit_lt _h
    omega

def matchTarget (accessors : Accessors) : Bytes → Nat → Except Nat (Bool × Nat)
  | [], place => .ok (true, place)
  | expected :: target, place => do
    let (unit?, next) ← nextUnit is place
    match unit? with
    | some unit =>
      if accessors.get? unit.name = some expected then matchTarget accessors target next
      else (false, ·) <$> skip is next
    | none => (false, ·) <$> skip is next

end

section

variable {is rest : List Instruction} {accessors : Accessors}

theorem skip_eq (place : Nat) :
    skip is place = nextUnit is place >>= fun
      | (some _, next) => skip is next
      | (none, next) => .ok next := by
  rw [skip]
  split <;> rename_i hnext <;> rw [hnext] <;> rfl

theorem skip_placeOf (h : rest <:+ is) :
    skip is (placeOf is rest) = .ok (placeOf is (Chain.skip rest)) := by
  unfold Chain.skip
  fun_induction Chain.units rest with
  | case1 rest unit hunit r ih =>
    rw [skip_eq, nextUnit_placeOf h, hunit]
    exact ih ((Chain.nextUnit_suffix rfl).trans h)
  | case2 rest hunit =>
    rw [skip_eq, nextUnit_placeOf h, hunit]
    rfl

theorem spell_eq (strict : Bool) (place : Nat) :
    spell is strict accessors place = nextUnit is place >>= fun
      | (none, next) => .ok (.ok [], next)
      | (some unit, next) =>
        match accessors.get? unit.name with
        | some byte => (fun r => ((byte :: ·) <$> r.1, r.2)) <$> spell is strict accessors next
        | none =>
          if strict then .ok (.error (.unmappedAccessor unit.name unit.address), next)
          else spell is strict accessors next := by
  rw [spell]
  split <;> rename_i hnext <;> rw [hnext] <;> rfl

theorem spell_placeOf (strict : Bool) (h : rest <:+ is) :
    spell is strict accessors (placeOf is rest) =
      .ok ((Chain.spell strict accessors rest).1,
        placeOf is (Chain.spell strict accessors rest).2) := by
  fun_induction Chain.spell strict accessors rest with
  | case1 rest hunit =>
    rw [spell_eq, nextUnit_placeOf h, hunit]
    rfl
  | case2 rest unit hunit byte hbyte r ih =>
    rw [spell_eq, nextUnit_placeOf h, hunit]
    simp only [bind, Except.bind, hbyte]
    rw [ih ((Chain.nextUnit_suffix rfl).trans h)]
    rfl
  | case3 rest unit hunit hbyte hstrict =>
    rw [spell_eq, nextUnit_placeOf h, hunit]
    simp only [bind, Except.bind, hbyte]
    rw [if_pos hstrict]
  | case4 rest unit hunit hbyte hlenient ih =>
    rw [spell_eq, nextUnit_placeOf h, hunit]
    simp only [bind, Except.bind, hbyte]
    rw [if_neg hlenient]
    exact ih ((Chain.nextUnit_suffix rfl).trans h)

theorem matchTarget_placeOf (target : Bytes) (h : rest <:+ is) :
    matchTarget is accessors target (placeOf is rest) =
      .ok ((Chain.matchTarget accessors target rest).1,
        placeOf is (Chain.matchTarget accessors target rest).2) := by
  fun_induction Chain.matchTarget accessors target rest with
  | case1 rest => rfl
  | case2 expected target rest unit behind hnext hbyte ih =>
    rw [matchTarget, nextUnit_placeOf h, hnext]
    simp only [bind, Except.bind]
    rw [if_pos hbyte]
    exact ih ((Chain.nextUnit_suffix hnext).trans h)
  | case3 expected target rest unit behind hnext hbyte =>
    rw [matchTarget, nextUnit_placeOf h, hnext]
    simp only [bind, Except.bind]
    rw [if_neg hbyte, skip_placeOf ((Chain.nextUnit_suffix hnext).trans h)]
    rfl
  | case4 expected target rest behind hnext =>
    rw [matchTarget, nextUnit_placeOf h, hnext]
    simp only [bind, Except.bind]
    rw [skip_placeOf ((Chain.nextUnit_suffix hnext).trans h)]
    rfl

end
end Places

end PackedMovie.Resource
