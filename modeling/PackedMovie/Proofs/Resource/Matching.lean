import PackedMovie.Proofs.Resource.Names
import PackedMovie.Resource.Walker

/-!
# Matching a target

Asked for one unit after another, a walker reads what is left of a chain. A match takes as many units
as the target has bytes and stops right behind the last of them; where it fails, the walker stands
where it would stand if it had passed over the whole chain at once.

Main statement: `matchTarget_decides`.
-/
namespace PackedMovie.Resource.Walker

open PackedMovie.Code (Instruction Opcode)
open PackedMovie.Resource.Chain

/-! ### Asking for units -/

/-- Asked for units, the walker gives these in turn, and then it stands there. -/
inductive Gives : Walker → List CallUnit → Walker → Prop where
  | nil {w : Walker} : Gives w [] w
  | cons {w v there : Walker} {unit : CallUnit} {us : List CallUnit}
      (hunit : w.nextUnit = (some unit, v)) (hrest : Gives v us there) : Gives w (unit :: us) there

/-- These are all units that the walker gives: asked once more it has none. -/
def GivesAll (w : Walker) (us : List CallUnit) (there : Walker) : Prop :=
  ∃ last, Gives w us last ∧ last.nextUnit = (none, there)

/-- The instructions are these units in turn, with nothing but additions in front of each and nothing
behind the last. -/
inductive Passed : List Instruction → List CallUnit → Prop where
  | nil : Passed [] []
  | cons {adds code passed : List Instruction} {unit : CallUnit} {us : List CallUnit}
      (hadds : AllAdds adds) (hunit : IsUnit code unit) (hrest : Passed passed us) :
      Passed (adds ++ code ++ passed) (unit :: us)

/-- There are enough units, and at each position of the target there is an accessor of its byte. -/
def Begins (accessors : Accessors) (target : Bytes) (us : List CallUnit) : Prop :=
  target.length ≤ us.length ∧ ∀ (i : Nat) (byte : UInt8), target[i]? = some byte →
    ∃ unit, us[i]? = some unit ∧ accessors.get? unit.name = some byte

section

variable {w v there : Walker} {us : List CallUnit}

theorem nextUnit_eq (w : Walker) :
    w.nextUnit = ((Chain.nextUnit w.rest).1, w.moveTo (Chain.nextUnit w.rest).2) := rfl

theorem nextUnit_eq_iff {unit? : Option CallUnit} :
    w.nextUnit = (unit?, v) ↔
      Chain.nextUnit w.rest = (unit?, v.rest) ∧ v = w.moveTo v.rest := by
  rw [nextUnit_eq]
  constructor
  · rintro ⟨⟩
    exact ⟨rfl, rfl⟩
  · rintro ⟨hnext, hv⟩
    rw [hnext]
    exact Prod.ext rfl hv.symm

/-- A walker never gives other units, nor does it stop elsewhere. -/
theorem GivesAll.unique {others : List CallUnit} (h : GivesAll w us there)
    (hothers : GivesAll w others v) : others = us ∧ v = there := by
  obtain ⟨last, hgives, hnone⟩ := h
  obtain ⟨last', hgives', hnone'⟩ := hothers
  induction hgives generalizing others with
  | nil =>
    cases hgives' with
    | nil =>
      rw [hnone] at hnone'
      exact ⟨rfl, (Prod.ext_iff.1 hnone').2.symm⟩
    | cons hunit _ =>
      rw [hnone] at hunit
      cases hunit
  | cons hunit _ ih =>
    cases hgives' with
    | nil =>
      rw [hnone'] at hunit
      cases hunit
    | cons hunit' hrest' =>
      rw [hunit] at hunit'
      cases hunit'
      obtain ⟨rfl, rfl⟩ := ih hnone hrest'
      exact ⟨rfl, rfl⟩

/-- The units that are asked for one by one are those of the chain, and behind them the chain has been
passed over. -/
theorem givesAll_units (w : Walker) : GivesAll w (units w.rest).1 w.skip := by
  generalize his : w.rest = is
  fun_induction units is generalizing w with
  | case1 is unit hsome _ ih =>
    subst his
    have hnext : Chain.nextUnit w.rest = (some unit, (Chain.nextUnit w.rest).2) := Prod.ext hsome rfl
    obtain ⟨last, hgives, hnone⟩ := ih (w.moveTo (Chain.nextUnit w.rest).2) rfl
    have hskip : (w.moveTo (Chain.nextUnit w.rest).2).skip = w.skip := by
      simp only [Walker.skip, moveTo, Chain.skip]
      rw [units_of_some hnext]
    rw [hskip] at hnone
    exact ⟨last, .cons (nextUnit_eq_iff.2 ⟨hnext, rfl⟩) hgives, hnone⟩
  | case2 is hnone =>
    subst his
    have hnext : Chain.nextUnit w.rest = (none, (Chain.nextUnit w.rest).2) := Prod.ext hnone rfl
    refine ⟨w, .nil, nextUnit_eq_iff.2 ⟨?_, rfl⟩⟩
    rw [Walker.skip, moveTo, Chain.skip, units_of_none hnext]
    exact hnext

theorem Gives.passed (h : Gives w us there) :
    ∃ passed, Passed passed us ∧ w.rest = passed ++ there.rest := by
  induction h with
  | nil => exact ⟨[], .nil, rfl⟩
  | cons hunit _ ih =>
    obtain ⟨passed, hpassed, hrest⟩ := ih
    obtain ⟨adds, code, hadds, hcode, his⟩ := nextUnit_eq_some (nextUnit_eq_iff.1 hunit).1
    refine ⟨adds ++ code ++ passed, .cons hadds hcode hpassed, ?_⟩
    rw [his, hrest]
    simp only [List.append_assoc]

/-- The first units are given on the way to all of them. -/
theorem Gives.take (h : Gives w us there) (count : Nat) : ∃ v, Gives w (us.take count) v := by
  induction h generalizing count with
  | nil => exact ⟨_, by rw [List.take_nil]; exact .nil⟩
  | cons hunit _ ih =>
    cases count with
    | zero => exact ⟨_, .nil⟩
    | succ count =>
      obtain ⟨v, hv⟩ := ih count
      exact ⟨v, .cons hunit hv⟩

/-! ### Comparing -/

theorem begins_iff {accessors : Accessors} {target : Bytes} :
    Begins accessors target us ↔ target.map some <+: Order.lookups accessors us := by
  rw [List.prefix_iff_getElem?]
  constructor
  · rintro ⟨-, hbytes⟩ i hi
    rw [List.length_map] at hi
    obtain ⟨unit, hunit, hbyte⟩ := hbytes i target[i] (List.getElem?_eq_getElem hi)
    rw [Order.lookups, List.getElem?_map, hunit, Option.map_some, hbyte, List.getElem_map]
  · intro h
    have hbytes : ∀ (i : Nat) (byte : UInt8), target[i]? = some byte →
        ∃ unit, us[i]? = some unit ∧ accessors.get? unit.name = some byte := by
      intro i byte hbyte
      obtain ⟨hi, rfl⟩ := List.getElem?_eq_some_iff.1 hbyte
      have hlookup := h i (by rwa [List.length_map])
      rw [Order.lookups, List.getElem?_map, List.getElem_map] at hlookup
      exact Option.map_eq_some_iff.1 hlookup
    refine ⟨Nat.le_of_not_lt fun hlast => ?_, hbytes⟩
    obtain ⟨unit, hunit, -⟩ := hbytes us.length _ (List.getElem?_eq_getElem hlast)
    rw [List.getElem?_eq_none (Nat.le_refl us.length)] at hunit
    cases hunit

/-- A match with the bytes that some units stand for goes through these units. -/
theorem Gives.matchTarget (h : Gives w us there) {target : Bytes}
    (htarget : Order.lookups w.accessors us = target.map some) :
    w.matchTarget target = (true, there) := by
  induction h generalizing target with
  | nil =>
    rw [List.map_eq_nil_iff.1 htarget.symm]
    rfl
  | @cons w v there unit us hunit _ ih =>
    cases target with
    | nil => cases htarget
    | cons byte target =>
      obtain ⟨hnext, hv⟩ := nextUnit_eq_iff.1 hunit
      rw [Order.lookups_cons, List.map_cons, List.cons.injEq] at htarget
      have haccessors : v.accessors = w.accessors := by rw [hv]; rfl
      have hmatch := ih (haccessors ▸ htarget.2)
      simp only [Walker.matchTarget, Chain.matchTarget, hnext, if_pos htarget.1] at hmatch ⊢
      rw [haccessors] at hmatch
      rw [← hmatch, hv]
      rfl

end

/-- A match succeeds if the units that are left of the chain are accessors of the target's bytes, as
far as the target goes; then the walker is right behind the unit of its last byte. Otherwise the
walker has passed over the chain. -/
theorem matchTarget_decides (w : Walker) (target : Bytes) :
    ∃ us, (∀ others there, GivesAll w others there ↔ others = us ∧ there = w.skip) ∧
      match w.matchTarget target with
      | (true, there) => Begins w.accessors target us ∧ Gives w (us.take target.length) there ∧
        ∃ passed, Passed passed (us.take target.length) ∧ w.rest = passed ++ there.rest
      | (false, there) => ¬ Begins w.accessors target us ∧ there = w.skip := by
  have hall := givesAll_units w
  refine ⟨(units w.rest).1, ?_, ?_⟩
  · intro others there
    refine ⟨hall.unique, ?_⟩
    rintro ⟨rfl, rfl⟩
    exact hall
  · by_cases hbegins : Begins w.accessors target (units w.rest).1
    · have hpre := begins_iff.1 hbegins
      obtain ⟨last, hgives, -⟩ := hall
      obtain ⟨there, hthere⟩ := hgives.take target.length
      have htake : Order.lookups w.accessors ((units w.rest).1.take target.length) =
          target.map some := by
        have hfirst := List.prefix_iff_eq_take.1 hpre
        rw [List.length_map] at hfirst
        rw [hfirst, Order.lookups, Order.lookups, List.map_take]
      rw [hthere.matchTarget htake]
      exact ⟨hbegins, hthere, hthere.passed⟩
    · have hmismatch := Order.matchTarget_of_not_prefixed (fun h => hbegins (begins_iff.2 h))
      rw [Walker.matchTarget, hmismatch]
      exact ⟨hbegins, rfl⟩

-- The chain ends with an addition before the target does, and the walker stands behind it.
example : ((start
    [⟨0, .getLocal0, []⟩, ⟨1, .callProperty, [1, 0]⟩, ⟨4, .add, []⟩, ⟨5, .other 0x29, []⟩]
    (.ofList [(1, 0x77)]) false).matchTarget [0x77, 0x77]).2.position = 3 := by
  decide +kernel

end PackedMovie.Resource.Walker
