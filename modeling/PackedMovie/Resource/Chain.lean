import PackedMovie.Resource.Accessors

/-!
# Chains of calls

A hidden string is spelled by calls to accessors that additions join. A *call unit* is a push of the
object itself followed by a property call; a *chain* is a run of units with additions before, between and
after them. All functions here work on the instructions still ahead and give back those they leave.

Main statements: no function goes back, and each that meets a unit gets past it.
-/
namespace PackedMovie.Resource

open PackedMovie.Code (Instruction Opcode)

/-- A call: the property's name, and the address of the call itself. -/
structure CallUnit where
  name : UInt32
  address : UInt32
  deriving DecidableEq, Repr

namespace Chain

def isAdd (i : Instruction) : Bool := i.opcode == .add

/-- The unit that some instructions begin with, and what follows it. -/
def unitAt? : List Instruction → Option (CallUnit × List Instruction)
  | i :: call :: rest =>
    if i.opcode = .getLocal0 ∧ call.opcode = .callProperty then
      some (⟨call.firstOperand, call.address⟩, rest)
    else none
  | _ => none

def atUnit (is : List Instruction) : Bool := (unitAt? is).isSome

/-- Does a chain go on here? -/
def atLink (is : List Instruction) : Bool := (is.head?.any isAdd) || atUnit is

/-- The next unit of the present chain. Additions are passed over even if no unit follows them. -/
def nextUnit (is : List Instruction) : Option CallUnit × List Instruction :=
  match unitAt? (is.dropWhile isAdd) with
  | some (unit, rest) => (some unit, rest)
  | none => (none, is.dropWhile isAdd)

/-- From the next unit on, wherever it is. -/
def seekUnit : List Instruction → List Instruction
  | [] => []
  | i :: rest => if atUnit (i :: rest) then i :: rest else seekUnit rest

/-- From just behind the next instruction with an opcode, if there is one. -/
def seekPast? (op : Opcode) : List Instruction → Option (List Instruction)
  | [] => none
  | i :: rest => if i.opcode = op then some rest else seekPast? op rest

/-! ### Progress -/

theorem unitAt?_length {is rest : List Instruction} {unit : CallUnit}
    (h : unitAt? is = some (unit, rest)) : is.length = rest.length + 2 := by
  unfold unitAt? at h
  split at h
  · split at h
    · cases h
      rfl
    · simp at h
  · simp at h

theorem length_dropWhile_le (p : Instruction → Bool) (is : List Instruction) :
    (is.dropWhile p).length ≤ is.length :=
  (List.dropWhile_sublist p).length_le

theorem nextUnit_length_le (is : List Instruction) : (nextUnit is).2.length ≤ is.length := by
  have hdrop := length_dropWhile_le isAdd is
  unfold nextUnit
  split
  · rename_i h
    have := unitAt?_length h
    simp only
    omega
  · exact hdrop

theorem nextUnit_some_length {is : List Instruction} {unit : CallUnit}
    (h : (nextUnit is).1 = some unit) : (nextUnit is).2.length + 2 ≤ is.length := by
  have hdrop := length_dropWhile_le isAdd is
  unfold nextUnit at h ⊢
  split at h
  · rename_i hunit
    have := unitAt?_length hunit
    simp only
    omega
  · simp at h

theorem unitAt?_of_nextUnit {is : List Instruction} (h : atUnit is = true) :
    ∃ unit, (nextUnit is).1 = some unit := by
  obtain ⟨⟨unit, rest⟩, hunit⟩ := Option.isSome_iff_exists.1 h
  have hdrop : is.dropWhile isAdd = is := by
    unfold unitAt? at hunit
    split at hunit
    · rename_i i call rest'
      split at hunit
      · rename_i hop
        simp [isAdd, hop.1]
      · simp at hunit
    · simp at hunit
  exact ⟨unit, by simp [nextUnit, hdrop, hunit]⟩

theorem seekUnit_length_le (is : List Instruction) : (seekUnit is).length ≤ is.length := by
  fun_induction seekUnit is with
  | case1 => exact Nat.le_refl _
  | case2 => exact Nat.le_refl _
  | case3 i rest _ ih => exact Nat.le_trans ih (Nat.le_succ rest.length)

theorem atUnit_seekUnit (is : List Instruction) : seekUnit is = [] ∨ atUnit (seekUnit is) = true := by
  fun_induction seekUnit is with
  | case1 => exact .inl rfl
  | case2 _ _ h => exact .inr h
  | case3 _ _ _ ih => exact ih

theorem seekUnit_of_atUnit {is : List Instruction} (h : atUnit is = true) : seekUnit is = is := by
  cases is with
  | nil => rfl
  | cons i rest => simp [seekUnit, h]

/-! ### Whole chains -/

/-- All units of the present chain, and what follows it. -/
def units (is : List Instruction) : List CallUnit × List Instruction :=
  match _h : (nextUnit is).1 with
  | some unit =>
    let r := units (nextUnit is).2
    (unit :: r.1, r.2)
  | none => ([], (nextUnit is).2)
termination_by is.length
decreasing_by
  have := nextUnit_some_length _h
  omega

def skip (is : List Instruction) : List Instruction := (units is).2

/-- The bytes that the units of the present chain stand for. Units without an accessor are left out or,
in strict reading, refused as soon as they are met. -/
def spell (strict : Bool) (accessors : Accessors) (is : List Instruction) :
    Except Error Bytes × List Instruction :=
  match _h : (nextUnit is).1 with
  | none => (.ok [], (nextUnit is).2)
  | some unit =>
    match accessors.get? unit.name with
    | some byte =>
      let r := spell strict accessors (nextUnit is).2
      ((byte :: ·) <$> r.1, r.2)
    | none =>
      if strict then (.error (.unmappedAccessor unit.name unit.address), (nextUnit is).2)
      else spell strict accessors (nextUnit is).2
termination_by is.length
decreasing_by
  all_goals
    have := nextUnit_some_length _h
    omega

/-- The bytes of the next chain, wherever it begins. -/
def spellNext (strict : Bool) (accessors : Accessors) (is : List Instruction) :
    Except Error Bytes × List Instruction :=
  spell strict accessors (seekUnit is)

/-- Do the next units of the present chain spell `target`? If so the chain goes on right behind them; if
not, the whole chain is passed over. -/
def matchTarget (accessors : Accessors) : Bytes → List Instruction → Bool × List Instruction
  | [], is => (true, is)
  | expected :: target, is =>
    match nextUnit is with
    | (some unit, rest) =>
      if accessors.get? unit.name = some expected then matchTarget accessors target rest
      else (false, skip rest)
    | (none, rest) => (false, skip rest)

theorem units_length_le (is : List Instruction) : (units is).2.length ≤ is.length := by
  fun_induction units is with
  | case1 is _ _ _ ih => exact Nat.le_trans ih (nextUnit_length_le is)
  | case2 is _ => exact nextUnit_length_le is

theorem skip_length_le (is : List Instruction) : (skip is).length ≤ is.length := units_length_le is

theorem spell_length_le (strict : Bool) (accessors : Accessors) (is : List Instruction) :
    (spell strict accessors is).2.length ≤ is.length := by
  fun_induction spell strict accessors is with
  | case1 is _ => exact nextUnit_length_le is
  | case2 is _ _ _ _ _ ih => exact Nat.le_trans ih (nextUnit_length_le is)
  | case3 is => exact nextUnit_length_le is
  | case4 is _ _ _ _ ih => exact Nat.le_trans ih (nextUnit_length_le is)

theorem spell_length_lt (strict : Bool) (accessors : Accessors) {is : List Instruction}
    (h : atUnit is = true) : (spell strict accessors is).2.length + 2 ≤ is.length := by
  obtain ⟨unit, hunit⟩ := unitAt?_of_nextUnit h
  have hlen := nextUnit_some_length hunit
  have hle := spell_length_le strict accessors (nextUnit is).2
  rw [spell]
  split
  · rename_i hnone
    rw [hunit] at hnone
    cases hnone
  · split
    · simp only
      omega
    · split
      · exact hlen
      · omega

theorem matchTarget_length_le (accessors : Accessors) (target : Bytes) (is : List Instruction) :
    (matchTarget accessors target is).2.length ≤ is.length := by
  fun_induction matchTarget accessors target is with
  | case1 => exact Nat.le_refl _
  | case2 _ _ is unit rest hnext _ ih =>
    have := nextUnit_length_le is
    rw [hnext] at this
    exact Nat.le_trans ih this
  | case3 _ _ is unit rest hnext _ =>
    have := nextUnit_length_le is
    rw [hnext] at this
    exact Nat.le_trans (skip_length_le rest) this
  | case4 _ _ is rest hnext =>
    have := nextUnit_length_le is
    rw [hnext] at this
    exact Nat.le_trans (skip_length_le rest) this

theorem matchTarget_cons_length_lt (accessors : Accessors) (b : UInt8) (target : Bytes)
    {is : List Instruction} (h : atUnit is = true) :
    (matchTarget accessors (b :: target) is).2.length + 2 ≤ is.length := by
  obtain ⟨unit, hunit⟩ := unitAt?_of_nextUnit h
  have hlen := nextUnit_some_length hunit
  unfold matchTarget
  split
  · rename_i rest hnext
    rw [hnext] at hlen
    have hm := matchTarget_length_le accessors target rest
    have hs := skip_length_le rest
    simp only at hlen
    split
    · omega
    · exact Nat.le_trans (Nat.add_le_add_right hs 2) hlen
  · rename_i hnext
    rw [hnext] at hunit
    cases hunit

end Chain
end PackedMovie.Resource
