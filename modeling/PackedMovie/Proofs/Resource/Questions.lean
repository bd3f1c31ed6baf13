import Mathlib.Order.Bounds.Defs
import PackedMovie.Proofs.Resource.Places

/-!
# Asking a walker

A walker can be asked anything in any order, and it goes on after a name that it could not spell. What
is ahead of it is always a rest of the same list, so its place stays within the list and never goes
back.

Main statement: `Walker.ask_advances`.
-/
namespace PackedMovie.Resource

open PackedMovie.Code (Instruction Opcode)

/-! ### What is found at a place -/

namespace Places

def HasOpcode (is : List Instruction) (op : Opcode) (place : Nat) : Prop :=
  ∃ i, is[place]? = some i ∧ i.opcode = op

/-- A push of the object itself is there, with a property call right behind it. -/
def HasUnit (is : List Instruction) (unit : CallUnit) (place : Nat) : Prop :=
  ∃ push call, is[place]? = some push ∧ is[place + 1]? = some call ∧
    push.opcode = .getLocal0 ∧ call.opcode = .callProperty ∧
    unit = ⟨(call.operands[0]?).getD 0, call.address⟩

/-- The first place from `start` on of which `P` holds. -/
def IsFirst (P : Nat → Prop) (start place : Nat) : Prop :=
  IsLeast {other | start ≤ other ∧ P other} place

section

variable {is rest : List Instruction} {i : Instruction} {P : Nat → Prop} {start place : Nat}

theorem isFirst_self (h : P start) : IsFirst P start start :=
  ⟨⟨Nat.le_refl start, h⟩, fun _ hother => hother.1⟩

theorem forall_not_of_not (h : ∀ other, start + 1 ≤ other → ¬ P other) (hstart : ¬ P start) :
    ∀ other, start ≤ other → ¬ P other := by
  intro other hother
  rcases Nat.eq_or_lt_of_le hother with rfl | hlater
  · exact hstart
  · exact h other hlater

theorem IsFirst.of_not (h : IsFirst P (start + 1) place) (hstart : ¬ P start) :
    IsFirst P start place := by
  obtain ⟨⟨hle, hplace⟩, hfirst⟩ := h
  refine ⟨⟨Nat.le_of_succ_le hle, hplace⟩, ?_⟩
  rintro other ⟨hother, hP⟩
  rcases Nat.eq_or_lt_of_le hother with rfl | hlater
  · exact absurd hP hstart
  · exact hfirst ⟨hlater, hP⟩

theorem getElem?_placeOf (h : rest <:+ is) (offset : Nat) :
    is[placeOf is rest + offset]? = rest[offset]? := by
  rw [← List.getElem?_drop, drop_placeOf h]

theorem hasOpcode_placeOf {op : Opcode} (h : i :: rest <:+ is) :
    HasOpcode is op (placeOf is (i :: rest)) ↔ i.opcode = op := by
  have hhead := getElem?_placeOf h 0
  rw [Nat.add_zero, List.getElem?_cons_zero] at hhead
  simp [HasOpcode, hhead]

theorem hasUnit_placeOf {unit : CallUnit} (h : rest <:+ is) :
    HasUnit is unit (placeOf is rest) ↔ ∃ behind, Chain.unitAt? rest = some (unit, behind) := by
  have hfirst := getElem?_placeOf h 0
  have hsecond := getElem?_placeOf h 1
  rw [Nat.add_zero] at hfirst
  simp only [Chain.unitAt?_eq_some_iff, HasUnit, hfirst, hsecond]
  constructor
  · rintro ⟨push, call, hpush, hcall, hpushes, hcalls, rfl⟩
    match rest with
    | [] => cases hpush
    | [_] => cases hcall
    | _ :: _ :: behind =>
      cases hpush
      cases hcall
      exact ⟨behind, [push, call], .mk hpushes hcalls, rfl⟩
  · rintro ⟨behind, code, hcode, rfl⟩
    cases hcode with
    | mk hpush hcall => exact ⟨_, _, rfl, rfl, hpush, hcall, rfl⟩

theorem not_hasOpcode_end {op : Opcode} {place : Nat} (h : is.length ≤ place) :
    ¬ HasOpcode is op place := by
  rintro ⟨i, hi, -⟩
  rw [List.getElem?_eq_none h] at hi
  cases hi

theorem seekPast?_first (op : Opcode) (h : rest <:+ is) :
    match Chain.seekPast? op rest with
    | some behind => ∃ place, IsFirst (HasOpcode is op) (placeOf is rest) place ∧
      placeOf is behind = place + 1
    | none => ∀ place, placeOf is rest ≤ place → ¬ HasOpcode is op place := by
  induction rest with
  | nil => exact fun place hplace => not_hasOpcode_end hplace
  | cons i rest ih =>
    have hhere : HasOpcode is op (placeOf is (i :: rest)) ↔ i.opcode = op := hasOpcode_placeOf h
    rw [Chain.seekPast?]
    by_cases hop : i.opcode = op
    · rw [if_pos hop]
      exact ⟨placeOf is (i :: rest), isFirst_self (hhere.2 hop), (placeOf_succ h).symm⟩
    · have hlater := ih (suffix_of_cons h)
      rw [← placeOf_succ h] at hlater
      rw [if_neg hop]
      split at hlater
      · obtain ⟨place, hfirst, hbehind⟩ := hlater
        exact ⟨place, hfirst.of_not (mt hhere.1 hop), hbehind⟩
      · exact forall_not_of_not hlater (mt hhere.1 hop)

theorem seekUnit_first (h : rest <:+ is) :
    (Chain.atUnit (Chain.seekUnit rest) = true ∧
      IsFirst (fun place => ∃ unit, HasUnit is unit place) (placeOf is rest)
        (placeOf is (Chain.seekUnit rest))) ∨
    (Chain.seekUnit rest = [] ∧
      ∀ place, placeOf is rest ≤ place → ¬ ∃ unit, HasUnit is unit place) := by
  have hhere {rest : List Instruction} (h : rest <:+ is) :
      (∃ unit, HasUnit is unit (placeOf is rest)) ↔ Chain.atUnit rest = true := by
    simp only [hasUnit_placeOf h, Chain.atUnit, Option.isSome_iff_exists, Prod.exists]
  induction rest with
  | nil =>
    refine .inr ⟨rfl, fun place hplace => ?_⟩
    rintro ⟨unit, push, call, hpush, -⟩
    exact not_hasOpcode_end hplace ⟨push, hpush, rfl⟩
  | cons i rest ih =>
    rw [Chain.seekUnit]
    by_cases hunit : Chain.atUnit (i :: rest) = true
    · rw [if_pos hunit]
      exact .inl ⟨hunit, isFirst_self ((hhere h).2 hunit)⟩
    · have hlater := ih (suffix_of_cons h)
      rw [← placeOf_succ h] at hlater
      rw [if_neg hunit]
      rcases hlater with ⟨hfound, hfirst⟩ | ⟨hnil, hnone⟩
      · exact .inl ⟨hfound, hfirst.of_not (mt (hhere h).1 hunit)⟩
      · exact .inr ⟨hnil, forall_not_of_not hnone (mt (hhere h).1 hunit)⟩

/-- Nothing but additions from one place on up to a unit. -/
def AddsToUnit (is : List Instruction) (start : Nat) (unit : CallUnit) (place : Nat) : Prop :=
  start ≤ place ∧ (∀ other, start ≤ other → other < place → HasOpcode is .add other) ∧
    HasUnit is unit place

theorem addsToUnit_iff {unit : CallUnit} (h : rest <:+ is) {place : Nat} :
    AddsToUnit is (placeOf is rest) unit place ↔
      ∃ adds code behind, Chain.AllAdds adds ∧ Chain.IsUnit code unit ∧
        rest = adds ++ (code ++ behind) ∧ place = placeOf is (code ++ behind) := by
  constructor
  · intro hplace
    induction rest with
    | nil =>
      obtain ⟨hle, -, push, call, hpush, -⟩ := hplace
      have hopcode : HasOpcode is push.opcode place := ⟨push, hpush, rfl⟩
      exact absurd hopcode (not_hasOpcode_end hle)
    | cons i rest ih =>
      obtain ⟨hle, hadds, hunit⟩ := hplace
      rcases Nat.eq_or_lt_of_le hle with rfl | hlater
      · obtain ⟨behind, hbehind⟩ := (hasUnit_placeOf h).1 hunit
        obtain ⟨code, hcode, hrest⟩ := Chain.unitAt?_eq_some_iff.1 hbehind
        exact ⟨[], code, behind, by simp [Chain.AllAdds], hcode, hrest, congrArg _ hrest⟩
      · have hadd := (hasOpcode_placeOf h).1 (hadds _ (Nat.le_refl _) hlater)
        obtain ⟨adds, code, behind, hall, hcode, rfl, hbehind⟩ := ih (suffix_of_cons h) (by
          rw [← placeOf_succ h]
          exact ⟨hlater, fun other hother => hadds other (Nat.le_of_succ_le hother), hunit⟩)
        exact ⟨i :: adds, code, behind, List.forall_mem_cons.2 ⟨hadd, hall⟩, hcode, rfl, hbehind⟩
  · rintro ⟨adds, code, behind, hadds, hcode, rfl, rfl⟩
    have hunit : code ++ behind <:+ is := (List.suffix_append adds _).trans h
    have hlength := h.length_le
    have hplace : placeOf is (code ++ behind) =
        placeOf is (adds ++ (code ++ behind)) + adds.length := by
      have hwhole : (adds ++ (code ++ behind)).length = adds.length + (code ++ behind).length :=
        List.length_append
      rw [List.length_append] at hlength
      rw [placeOf, placeOf, hwhole]
      omega
    refine ⟨by omega, fun other hle hlt => ?_, ?_⟩
    · obtain ⟨offset, rfl⟩ := Nat.exists_eq_add_of_le hle
      have hoffset : offset < adds.length := by omega
      refine ⟨adds[offset], ?_, hadds _ (List.getElem_mem hoffset)⟩
      rw [getElem?_placeOf h, List.getElem?_append_left hoffset, List.getElem?_eq_getElem hoffset]
    · exact (hasUnit_placeOf hunit).2 ⟨behind, Chain.unitAt?_eq_some_iff.2 ⟨code, hcode, rfl⟩⟩

end
end Places

/-! ### Questions -/

namespace Walker

open PackedMovie.Resource.Chain (seekUnit_suffix nextUnit_suffix units_suffix spellNext_suffix
  matchTarget_suffix)

/-- What a walker can be asked. -/
inductive Question where
  | seekPast (op : Opcode)
  | nextString
  | nextUnit
  | skip
  | spellNext
  | matchTarget (target : Bytes)
  deriving DecidableEq, Repr

inductive Answer where
  | found (yes : Bool)
  | unit (unit? : Option CallUnit)
  | passed
  | text (bytes : Except Error Bytes)

/-- The answer to a question, and the walker that gave it. -/
def ask (w : Walker) : Question → Answer × Walker
  | .seekPast op => (w.seekPast op).map .found id
  | .nextString => w.nextString.map .found id
  | .nextUnit => w.nextUnit.map .unit id
  | .skip => (.passed, w.skip)
  | .spellNext => w.spellNext.map .text id
  | .matchTarget target => (w.matchTarget target).map .found id

/-- The same by place. -/
def askAt (w : Walker) (place : Nat) : Question → Except Nat (Answer × Nat)
  | .seekPast op => Prod.map .found id <$> Places.seekPast w.instructions op place
  | .nextString => Prod.map .found id <$> Places.nextString w.instructions place
  | .nextUnit => Prod.map .unit id <$> Places.nextUnit w.instructions place
  | .skip => (.passed, ·) <$> Places.skip w.instructions place
  | .spellNext => do
    let (_, here) ← Places.nextString w.instructions place
    Prod.map .text id <$> Places.spell w.instructions w.strict w.accessors here
  | .matchTarget target =>
    Prod.map .found id <$> Places.matchTarget w.instructions w.accessors target place

/-- The walker after a number of questions. -/
def run (w : Walker) (questions : List Question) : Walker :=
  questions.foldl (fun v q => (v.ask q).2) w

theorem ask_leaves (w : Walker) (q : Question) :
    (w.ask q).2 = w.moveTo (w.ask q).2.rest ∧ (w.ask q).2.rest <:+ w.rest := by
  cases q with
  | seekPast op =>
    rw [ask, Walker.seekPast, Order.seekPast?_eq]
    have hsuffix : w.rest.dropWhile (·.opcode != op) <:+ w.rest := List.dropWhile_suffix _
    cases hrest : w.rest.dropWhile (·.opcode != op) with
    | nil => exact ⟨rfl, List.nil_suffix⟩
    | cons i behind =>
      rw [hrest] at hsuffix
      exact ⟨rfl, (List.suffix_cons i behind).trans hsuffix⟩
  | nextString => exact ⟨rfl, seekUnit_suffix w.rest⟩
  | nextUnit => exact ⟨rfl, nextUnit_suffix rfl⟩
  | skip => exact ⟨rfl, units_suffix w.rest⟩
  | spellNext => exact ⟨rfl, spellNext_suffix w.strict w.accessors w.rest⟩
  | matchTarget target => exact ⟨rfl, matchTarget_suffix w.accessors target w.rest⟩

theorem askAt_position (w : Walker) (hw : w.IsPlaced) (q : Question) :
    w.askAt w.position q = .ok ((w.ask q).1, (w.ask q).2.position) := by
  change w.askAt (Places.placeOf w.instructions w.rest) q = _
  cases q with
  | seekPast op =>
    rw [askAt, Places.seekPast_placeOf op hw, ask, Walker.seekPast]
    cases Chain.seekPast? op w.rest <;> rfl
  | nextString =>
    rw [askAt, Places.nextString_placeOf hw]
    rfl
  | nextUnit =>
    rw [askAt, Places.nextUnit_placeOf hw]
    rfl
  | skip =>
    rw [askAt, Places.skip_placeOf hw]
    rfl
  | spellNext =>
    rw [askAt, Places.nextString_placeOf hw]
    simp only [bind, Except.bind]
    rw [Places.spell_placeOf w.strict ((seekUnit_suffix w.rest).trans hw)]
    rfl
  | matchTarget target =>
    rw [askAt, Places.matchTarget_placeOf target hw]
    rfl

theorem run_leaves (w : Walker) (questions : List Question) :
    w.run questions = w.moveTo (w.run questions).rest ∧ (w.run questions).rest <:+ w.rest := by
  induction questions generalizing w with
  | nil => exact ⟨rfl, List.suffix_refl _⟩
  | cons q questions ih =>
    obtain ⟨hmoved, hsuffix⟩ := ih (w.ask q).2
    obtain ⟨hfirst, hless⟩ := w.ask_leaves q
    have hsame (rest : List Instruction) : (w.ask q).2.moveTo rest = w.moveTo rest := by
      rw [hfirst]
      rfl
    exact ⟨hmoved.trans (hsame _), hsuffix.trans hless⟩

theorem position_le_ask (w : Walker) (q : Question) : w.position ≤ (w.ask q).2.position := by
  obtain ⟨hmoved, hsuffix⟩ := w.ask_leaves q
  have hlength := hsuffix.length_le
  rw [hmoved, position, position]
  simp only [moveTo]
  omega

section

variable {w : Walker} (hw : w.IsPlaced)
include hw

theorem rest_eq_drop : w.rest = w.instructions.drop w.position := (Places.drop_placeOf hw).symm

theorem seekPast_finds (op : Opcode) :
    match w.seekPast op with
    | (true, v) => ∃ place,
      Places.IsFirst (Places.HasOpcode w.instructions op) w.position place ∧ v.position = place + 1
    | (false, v) => (∀ place, w.position ≤ place → ¬ Places.HasOpcode w.instructions op place) ∧
      v.position = w.instructions.length := by
  have hfirst := Places.seekPast?_first op hw
  rw [Walker.seekPast]
  cases hseek : Chain.seekPast? op w.rest with
  | none =>
    rw [hseek] at hfirst
    exact ⟨hfirst, rfl⟩
  | some behind =>
    rw [hseek] at hfirst
    exact hfirst

theorem nextString_finds :
    match w.nextString with
    | (true, v) => Places.IsFirst (fun place => ∃ unit, Places.HasUnit w.instructions unit place)
      w.position v.position
    | (false, v) =>
      (∀ place, w.position ≤ place → ¬ ∃ unit, Places.HasUnit w.instructions unit place) ∧
      v.position = w.instructions.length := by
  rcases Places.seekUnit_first hw with ⟨hunit, hfirst⟩ | ⟨hnil, hnone⟩
  · rw [nextString_of_unit hunit]
    exact hfirst
  · simp only [nextString, hnil]
    exact ⟨hnone, rfl⟩

theorem nextUnit_finds :
    match w.nextUnit with
    | (some unit, v) => ∃ place,
      Places.AddsToUnit w.instructions w.position unit place ∧ v.position = place + 2
    | (none, _) => ∀ unit place, ¬ Places.AddsToUnit w.instructions w.position unit place := by
  rw [nextUnit_eq]
  cases hnext : Chain.nextUnit w.rest with
  | mk unit? behind =>
    cases unit? with
    | none =>
      rintro unit place hplace
      obtain ⟨adds, code, rest, hadds, hcode, hrest, -⟩ := (Places.addsToUnit_iff hw).1 hplace
      rw [hrest, Chain.nextUnit_adds hadds, Chain.nextUnit_unit hcode] at hnext
      cases hnext
    | some unit =>
      obtain ⟨adds, code, hadds, hcode, hrest⟩ := Chain.nextUnit_eq_some hnext
      refine ⟨Places.placeOf w.instructions (code ++ behind),
        (Places.addsToUnit_iff hw).2 ⟨adds, code, behind, hadds, hcode, hrest, rfl⟩, ?_⟩
      have hunit : code ++ behind <:+ w.instructions :=
        (List.suffix_append adds _).trans (hrest ▸ hw)
      obtain ⟨hpush, hcall⟩ := hcode
      exact ((congrArg (· + 1) (Places.placeOf_succ hunit)).trans
        (Places.placeOf_succ (Places.suffix_of_cons hunit))).symm

end

/-- Wherever a walker comes to stand, what is ahead of it is what the list has from its place on. Each
further answer is the one that is found by looking instructions up by their places, none of them
outside the list, and leaves it at the same place or further on. A sought opcode or unit is the first
one from the place on; if there is none, the walker stands at the end. A next unit is one that has
nothing but additions before it. -/
theorem ask_advances (is : List Instruction) (accessors : Accessors) (strict : Bool)
    (questions : List Question) :
    let w := (start is accessors strict).run questions
    (w.position ≤ is.length ∧ w.rest = is.drop w.position) ∧
      (∀ q, w.position ≤ (w.ask q).2.position ∧ (w.ask q).2.position ≤ is.length ∧
        w.askAt w.position q = .ok ((w.ask q).1, (w.ask q).2.position)) ∧
      (∀ op, match w.seekPast op with
        | (true, v) => ∃ place, Places.IsFirst (Places.HasOpcode is op) w.position place ∧
          v.position = place + 1
        | (false, v) => (∀ place, w.position ≤ place → ¬ Places.HasOpcode is op place) ∧
          v.position = is.length) ∧
      (match w.nextString with
        | (true, v) =>
          Places.IsFirst (fun place => ∃ unit, Places.HasUnit is unit place) w.position v.position
        | (false, v) =>
          (∀ place, w.position ≤ place → ¬ ∃ unit, Places.HasUnit is unit place) ∧
          v.position = is.length) ∧
      (match w.nextUnit with
        | (some unit, v) => ∃ place, Places.AddsToUnit is w.position unit place ∧
          v.position = place + 2
        | (none, _) => ∀ unit place, ¬ Places.AddsToUnit is w.position unit place) := by
  intro w
  obtain ⟨hmoved, hsuffix⟩ := (start is accessors strict).run_leaves questions
  have hinstructions : w.instructions = is := congrArg Walker.instructions hmoved
  have hw : w.IsPlaced := by
    rw [IsPlaced, hinstructions]
    exact hsuffix
  rw [← hinstructions]
  refine ⟨⟨w.position_le, rest_eq_drop hw⟩, fun q => ⟨w.position_le_ask q, ?_, ?_⟩,
    seekPast_finds hw, nextString_finds hw, nextUnit_finds hw⟩
  · have hbound := (w.ask q).2.position_le
    rw [(w.ask_leaves q).1] at hbound ⊢
    exact hbound
  · exact w.askAt_position hw q

-- A name that cannot be spelled stops a strict walker behind the unit; from there it goes on.
example : ((start
    [⟨0, .getLocal0, []⟩, ⟨1, .callProperty, [5, 0]⟩, ⟨4, .add, []⟩, ⟨5, .getLocal0, []⟩,
      ⟨6, .callProperty, [1, 0]⟩] (.ofList [(1, 0x77)]) true).run [.spellNext, .nextUnit]).position =
    5 := by
  decide +kernel

end Walker
end PackedMovie.Resource
