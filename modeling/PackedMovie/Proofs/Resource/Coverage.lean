import Mathlib.Data.List.TakeWhile
import PackedMovie.Proofs.Resource.Matching
import PackedMovie.Proofs.Resource.Strictness

/-!
# Chain after chain

Spelling chain after chain, a walker comes past every call unit ahead of it, and past none twice:
between the end of one chain and the first unit of the next there is none, even where half a unit
stands in front of a whole one.

Main statement: `spellNext_covers`.
-/
namespace PackedMovie.Resource

open PackedMovie.Code (Instruction Opcode)

namespace Chain

/-! ### All units -/

/-- The unit that two neighbours are, if they are one. -/
def unitOf? (push call : Instruction) : Option CallUnit :=
  if push.opcode = .getLocal0 ∧ call.opcode = .callProperty then
    some ⟨(call.operands[0]?).getD 0, call.address⟩
  else none

/-- The units among some instructions, in order, whatever chains they belong to. -/
def allUnits (is : List Instruction) : List CallUnit :=
  (is.zip is.tail).filterMap fun pair => unitOf? pair.1 pair.2

theorem allUnits_cons_cons (push call : Instruction) (rest : List Instruction) :
    allUnits (push :: call :: rest) =
      (unitOf? push call).toList ++ allUnits (call :: rest) := by
  rw [allUnits, List.tail_cons, List.zip_cons_cons, List.filterMap_cons]
  cases unitOf? push call <;> rfl

theorem allUnits_cons {i : Instruction} {rest : List Instruction} (h : ¬ BeginsUnit (i :: rest)) :
    allUnits (i :: rest) = allUnits rest := by
  cases rest with
  | nil => rfl
  | cons call rest =>
    have hnone : unitOf? i call = none := by
      unfold unitOf?
      rw [if_neg]
      rintro ⟨hpush, hcall⟩
      exact h ⟨[i, call], _, .mk hpush hcall, rest, rfl⟩
    rw [allUnits_cons_cons, hnone]
    rfl

theorem allUnits_unit {code : List Instruction} {unit : CallUnit} (h : IsUnit code unit)
    (rest : List Instruction) : allUnits (code ++ rest) = unit :: allUnits rest := by
  obtain @⟨push, call, hpush, hcall⟩ := h
  have hbehind : ¬ BeginsUnit (call :: rest) := by
    rintro ⟨_, _, ⟨hpush', _⟩, _, hcode⟩
    rw [(List.cons.inj hcode).1, hcall] at hpush'
    cases hpush'
  rw [List.cons_append, List.singleton_append, allUnits_cons_cons, allUnits_cons hbehind, unitOf?,
    if_pos ⟨hpush, hcall⟩]
  rfl

theorem allUnits_seekUnit (is : List Instruction) : allUnits (seekUnit is) = allUnits is := by
  fun_induction seekUnit is with
  | case1 => rfl
  | case2 => rfl
  | case3 i rest hunit ih => rw [ih, allUnits_cons fun h => hunit (atUnit_iff.2 h)]

theorem allUnits_adds {adds : List Instruction} (h : AllAdds adds) (rest : List Instruction) :
    allUnits (adds ++ rest) = allUnits rest := by
  rw [← allUnits_seekUnit, seekUnit_adds h, allUnits_seekUnit]

/-- The walk over a chain comes past the first of the units and leaves the others. -/
theorem allUnits_eq (is : List Instruction) :
    allUnits is = (units is).1 ++ allUnits (units is).2 := by
  fun_induction units is with
  | case1 is unit hsome r ih =>
    obtain ⟨adds, code, hadds, hunit, his⟩ := nextUnit_eq_some (Prod.ext hsome rfl)
    conv_lhs => rw [his, allUnits_adds hadds, allUnits_unit hunit, ih]
    rfl
  | case2 is hnone =>
    obtain ⟨adds, hadds, his⟩ := nextUnit_eq_none (Prod.ext hnone rfl)
    conv_lhs => rw [his, allUnits_adds hadds]
    rfl

/-! ### Where a chain ends -/

/-- Neither an addition nor a unit comes next. -/
def Ended (is : List Instruction) : Prop :=
  ¬ BeginsUnit is ∧ ∀ i ∈ is.head?, i.opcode ≠ .add

theorem nextUnit_units (is : List Instruction) :
    nextUnit (units is).2 = (none, (units is).2) := by
  fun_induction units is with
  | case1 is unit hsome r ih => exact ih
  | case2 is hnone => exact nextUnit_rest_of_none (Prod.ext hnone rfl)

theorem ended_units (is : List Instruction) : Ended (units is).2 := by
  have hnext := nextUnit_units is
  generalize (units is).2 = rest at hnext
  constructor
  · rintro ⟨code, unit, hunit, behind, rfl⟩
    rw [nextUnit_unit hunit] at hnext
    cases hnext
  · rintro i hi hadd
    obtain ⟨behind, rfl⟩ := List.head?_eq_some_iff.1 hi
    have hadds : AllAdds [i] := by simpa [AllAdds] using hadd
    have hle := nextUnit_length_le behind
    rw [show i :: behind = [i] ++ behind from rfl, nextUnit_adds hadds] at hnext
    rw [hnext, List.length_append, List.length_singleton] at hle
    omega

/-- A chain that is looked for in what is not empty leaves less. -/
theorem units_seekUnit_length_lt {is : List Instruction} (h : is ≠ []) :
    (units (seekUnit is)).2.length < is.length := by
  rcases atUnit_seekUnit is with hnil | hunit
  · rw [hnil, units_of_none rfl]
    exact List.length_pos_iff.2 h
  · exact Nat.lt_of_lt_of_le (units_length_lt hunit) (seekUnit_length_le is)

end Chain

namespace Walker

open PackedMovie.Resource.Chain
open PackedMovie.Resource.Order (mapped)

/-! ### Lenient spelling -/

/-- Spelling chain after chain until the end gives these texts in turn. -/
inductive SpellsAll : Walker → List Bytes → Prop where
  | done {w : Walker} (hend : w.isAtEnd = true) : SpellsAll w []
  | chain {w v : Walker} {bytes : Bytes} {texts : List Bytes} (hmore : w.isAtEnd = false)
      (hspell : w.spellNext = (.ok bytes, v)) (hrest : SpellsAll v texts) :
      SpellsAll w (bytes :: texts)

theorem SpellsAll.unique {w : Walker} {texts others : List Bytes} (h : SpellsAll w texts)
    (hothers : SpellsAll w others) : others = texts := by
  induction h generalizing others with
  | done hend =>
    cases hothers with
    | done => rfl
    | chain hmore =>
      rw [hend] at hmore
      cases hmore
  | chain hmore hspell _ ih =>
    cases hothers with
    | done hend =>
      rw [hmore] at hend
      cases hend
    | chain _ hspell' hrest' =>
      rw [hspell] at hspell'
      cases hspell'
      rw [ih hrest']

/-- A chain is spelled from its first unit on to where it ends. To a strict walker its units must
have accessors. -/
theorem spellNext_eq {w : Walker} (h : w.strict = true →
      ∀ unit ∈ (units (seekUnit w.rest)).1, (w.accessors.get? unit.name).isSome) :
    w.spellNext = (.ok (mapped w.accessors (units (seekUnit w.rest)).1), w.nextString.2.skip) := by
  have hspell : spell w.strict w.accessors (seekUnit w.rest) = _ := Order.spell_eq h
  rw [Walker.spellNext, Chain.spellNext, hspell]
  rfl

theorem spellNext_lenient {w : Walker} (h : w.strict = false) :
    w.spellNext = (.ok (mapped w.accessors (units (seekUnit w.rest)).1), w.nextString.2.skip) :=
  spellNext_eq fun hstrict => absurd (h.symm.trans hstrict) Bool.false_ne_true

/-- Together the texts are what all units ahead stand for. -/
theorem exists_spellsAll (w : Walker) (h : w.strict = false) :
    ∃ texts, SpellsAll w texts ∧ texts.flatten = mapped w.accessors (allUnits w.rest) := by
  induction hlength : w.rest.length using Nat.strong_induction_on generalizing w with
  | h length ih =>
    subst hlength
    cases hend : w.isAtEnd with
    | true =>
      refine ⟨[], .done hend, ?_⟩
      rw [List.isEmpty_iff.1 hend]
      rfl
    | false =>
      have hne : w.rest ≠ [] := by
        intro hnil
        rw [isAtEnd, hnil] at hend
        cases hend
      obtain ⟨texts, htexts, hflatten⟩ :=
        ih _ (units_seekUnit_length_lt hne) w.nextString.2.skip h rfl
      refine ⟨_, .chain hend (spellNext_lenient h) htexts, ?_⟩
      rw [List.flatten_cons, hflatten, ← allUnits_seekUnit w.rest, allUnits_eq (seekUnit w.rest)]
      exact (List.filterMap_append ..).symm

/-! ### Strict spelling -/

/-- The unit calls an accessor. -/
def isMapped (accessors : Accessors) (unit : CallUnit) : Bool := (accessors.get? unit.name).isSome

theorem Gives.eq_moveTo {w there : Walker} {us : List CallUnit} (h : Gives w us there) :
    there = w.moveTo there.rest := by
  induction h with
  | nil => rfl
  | cons hunit _ ih =>
    rw [(nextUnit_eq_iff.1 hunit).2] at ih
    exact ih

/-- The first unit without an accessor stops a strict walker, which then stands behind it. -/
theorem Gives.spell_refused {w there : Walker} {us : List CallUnit} {unit : CallUnit}
    (h : Gives w (us ++ [unit]) there) (hus : ∀ u ∈ us, isMapped w.accessors u = true)
    (hunit : isMapped w.accessors unit = false) :
    spell true w.accessors w.rest =
      (.error (.unmappedAccessor unit.name unit.address), there.rest) := by
  induction us generalizing w with
  | nil =>
    have hnone : w.accessors.get? unit.name = none := by simpa [isMapped] using hunit
    cases h with
    | cons hnext hrest =>
      cases hrest
      rw [spell_nextUnit, (nextUnit_eq_iff.1 hnext).1]
      simp only [hnone, ↓reduceIte]
  | cons first us ih =>
    obtain ⟨byte, hbyte⟩ := Option.isSome_iff_exists.1 (hus first List.mem_cons_self)
    cases h with
    | @cons _ v _ _ _ hnext hrest =>
      obtain ⟨hnext, hv⟩ := nextUnit_eq_iff.1 hnext
      have haccessors : v.accessors = w.accessors := by rw [hv]; rfl
      have hstop := ih hrest
        (fun u hu => haccessors ▸ hus u (List.mem_cons_of_mem first hu)) (haccessors ▸ hunit)
      rw [haccessors] at hstop
      rw [spell_nextUnit, hnext]
      simp only [hbyte, hstop]
      rfl

/-- On the way to the end of a chain a strict walker comes as far as the first unit without an
accessor. -/
theorem Gives.spell_upTo {w last : Walker} {us rest : List CallUnit} {unit : CallUnit}
    (h : Gives w us last) (hdrop : us.dropWhile (isMapped w.accessors) = unit :: rest) :
    ∃ there, Gives w (us.takeWhile (isMapped w.accessors) ++ [unit]) there ∧
      spell true w.accessors w.rest =
        (.error (.unmappedAccessor unit.name unit.address), there.rest) := by
  have hunit : isMapped w.accessors unit = false := by
    have hhead := List.head?_dropWhile_not (isMapped w.accessors) us
    rw [hdrop] at hhead
    simpa using hhead
  have hfront : ∀ u ∈ us.takeWhile (isMapped w.accessors), isMapped w.accessors u = true :=
    List.all_eq_true.1 List.all_takeWhile
  have hsplit := List.takeWhile_append_dropWhile (p := isMapped w.accessors) (l := us)
  rw [hdrop, List.append_cons] at hsplit
  obtain ⟨there, hthere⟩ := h.take (us.takeWhile (isMapped w.accessors) ++ [unit]).length
  have htake : us.take (us.takeWhile (isMapped w.accessors) ++ [unit]).length =
      us.takeWhile (isMapped w.accessors) ++ [unit] :=
    (List.prefix_iff_eq_take.1 ⟨rest, hsplit⟩).symm
  rw [htake] at hthere
  exact ⟨there, hthere, hthere.spell_refused hfront hunit⟩

/-- Spelling leniently, a walker ends where it would end if it passed over the next chain, which is
neither at an addition nor at a unit. If it goes on until nothing is left, it has spelled each unit
that was ahead once and in order. Spelling strictly, it gives the same, or else the chain has a unit
without an accessor, and the walker stops behind the first one. -/
theorem spellNext_covers (w : Walker) :
    let lenient := { w with strict := false }
    let strict := { w with strict := true }
    (lenient.spellNext.2 = lenient.nextString.2.skip ∧ Ended lenient.spellNext.2.rest) ∧
      (∃ texts, (∀ others, SpellsAll lenient others ↔ others = texts) ∧
        texts.flatten = mapped w.accessors (allUnits w.rest)) ∧
      ∃ us, GivesAll strict.nextString.2 us strict.nextString.2.skip ∧
        match us.dropWhile (isMapped w.accessors) with
        | [] => strict.spellNext = (lenient.spellNext.1, { lenient.spellNext.2 with strict := true })
        | unit :: _ => ∃ there,
            Gives strict.nextString.2 (us.takeWhile (isMapped w.accessors) ++ [unit]) there ∧
            (∃ passed, Passed passed (us.takeWhile (isMapped w.accessors) ++ [unit]) ∧
              strict.nextString.2.rest = passed ++ there.rest) ∧
            strict.spellNext = (.error (.unmappedAccessor unit.name unit.address), there) := by
  intro lenient strict
  have hlenient : lenient.spellNext = _ := spellNext_lenient rfl
  refine ⟨⟨?_, ?_⟩, ?_, ?_⟩
  · rw [hlenient]
  · rw [hlenient]
    exact ended_units (seekUnit w.rest)
  · obtain ⟨texts, htexts, hflatten⟩ := exists_spellsAll lenient rfl
    refine ⟨texts, fun others => ⟨htexts.unique, ?_⟩, hflatten⟩
    rintro rfl
    exact htexts
  · have hall := givesAll_units strict.nextString.2
    refine ⟨_, hall, ?_⟩
    split
    · rename_i hmapped
      rw [List.dropWhile_eq_nil_iff] at hmapped
      have hstrict : strict.spellNext = _ := spellNext_eq fun _ => hmapped
      rw [hstrict, hlenient]
      rfl
    · rename_i unit rest hdrop
      obtain ⟨last, hgives, -⟩ := hall
      obtain ⟨there, hthere, hspell⟩ := hgives.spell_upTo hdrop
      refine ⟨there, hthere, hthere.passed, ?_⟩
      have hspellNext : Chain.spellNext true w.accessors w.rest = _ := hspell
      rw [hthere.eq_moveTo]
      simp only [Walker.spellNext, strict, hspellNext]
      rfl

-- The first chain ends with an addition, and half a unit stands in front of the second.
example :
    let w := start
      [⟨0, .getLocal0, []⟩, ⟨1, .callProperty, [1, 0]⟩, ⟨4, .add, []⟩, ⟨5, .getLocal0, []⟩,
        ⟨6, .getLocal0, []⟩, ⟨7, .callProperty, []⟩] (.ofList [(1, 0x77), (0, 0x61)]) false
    w.spellNext.1 = .ok [0x77] ∧ w.spellNext.2.position = 3 ∧
      w.spellNext.2.spellNext.1 = .ok [0x61] ∧ w.spellNext.2.spellNext.2.isAtEnd = true := by
  decide +kernel

end Walker

end PackedMovie.Resource
