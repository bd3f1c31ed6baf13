import PackedMovie.Proofs.Resource.Names

/-!
# Spelled names

What the search makes of code that spells a name: the calls of the accessors of its bytes in turn,
with additions between them.

Main statements: `split_block`, by which a spelled chain is one of the chains, and
`names_of_lookups`, by which a spelled target and name give the name.
-/
namespace PackedMovie.Resource.Order

open PackedMovie.Code (Instruction Opcode)
open PackedMovie.Resource.Chain

/-- The instructions call the accessors of some bytes in turn; additions may stand anywhere. -/
inductive Spells (accessors : Accessors) : List Instruction → Bytes → Prop where
  | nil : Spells accessors [] []
  | add {i : Instruction} {is : List Instruction} {bytes : Bytes} (hop : i.opcode = .add)
      (hrest : Spells accessors is bytes) : Spells accessors (i :: is) bytes
  | unit {code is : List Instruction} {unit : CallUnit} {byte : UInt8} {bytes : Bytes}
      (hunit : IsUnit code unit) (hbyte : accessors.get? unit.name = some byte)
      (hrest : Spells accessors is bytes) : Spells accessors (code ++ is) (byte :: bytes)

section

variable {accessors : Accessors}

theorem Spells.append {front back : List Instruction} {bytes more : Bytes}
    (hfront : Spells accessors front bytes) (hback : Spells accessors back more) :
    Spells accessors (front ++ back) (bytes ++ more) := by
  induction hfront with
  | nil => exact hback
  | add hop _ ih => exact Spells.add hop ih
  | unit hunit hbyte _ ih =>
    rw [List.append_assoc, List.cons_append]
    exact Spells.unit hunit hbyte ih

/-- The walk takes one unit for each byte. -/
theorem Spells.exists_units {is : List Instruction} {bytes : Bytes}
    (h : Spells accessors is bytes) :
    ∃ us, lookups accessors us = bytes.map some ∧
      ∀ rest, units (is ++ rest) = (us ++ (units rest).1, (units rest).2) := by
  induction h with
  | nil => exact ⟨[], rfl, fun rest => rfl⟩
  | @add i is bytes hop _ ih =>
    obtain ⟨us, hus, hunits⟩ := ih
    have hadds : AllAdds [i] := by
      intro j hj
      rw [List.mem_singleton.1 hj]
      exact hop
    refine ⟨us, hus, ?_⟩
    intro rest
    rw [← hunits rest]
    exact units_adds hadds (is ++ rest)
  | @unit code is unit byte bytes hunit hbyte _ ih =>
    obtain ⟨us, hus, hunits⟩ := ih
    refine ⟨unit :: us, ?_, ?_⟩
    · rw [lookups_cons, hus, hbyte, List.map_cons]
    · intro rest
      rw [List.append_assoc, units_of_some (nextUnit_unit hunit _), hunits rest]
      rfl

/-! ### Chains between other instructions -/

theorem split_of_seekUnit_eq {is others : List Instruction} (h : seekUnit is = seekUnit others) :
    split is = split others := by
  rw [split, split.eq_def others, h]

theorem split_cons {i : Instruction} {rest : List Instruction} (h : ¬ BeginsUnit (i :: rest)) :
    split (i :: rest) = split rest := by
  apply split_of_seekUnit_eq
  rw [seekUnit, if_neg fun hunit => h (atUnit_iff.1 hunit)]

/-- Only a push of the object itself begins a unit. -/
theorem opcode_of_beginsUnit {i : Instruction} {rest : List Instruction}
    (h : BeginsUnit (i :: rest)) : i.opcode = .getLocal0 := by
  obtain ⟨_, _, ⟨hpush, _⟩, _, hcode⟩ := h
  rw [← (List.cons.inj hcode).1]
  exact hpush

theorem not_beginsUnit {i : Instruction} (h : i.opcode ≠ .getLocal0) (rest : List Instruction) :
    ¬ BeginsUnit (i :: rest) := fun hbegins => h (opcode_of_beginsUnit hbegins)

theorem not_beginsUnit_push {push : Instruction} {is : List Instruction} (h : BeginsUnit is) :
    ¬ BeginsUnit (push :: is) := by
  rintro ⟨_, _, ⟨_, hcall⟩, _, hcode⟩
  rw [← (List.cons.inj hcode).2] at h
  have hpush := opcode_of_beginsUnit h
  rw [hcall] at hpush
  cases hpush

theorem units_cons {i : Instruction} {rest : List Instruction} (hadd : i.opcode ≠ .add)
    (hpush : i.opcode ≠ .getLocal0) : units (i :: rest) = ([], i :: rest) := by
  apply units_of_none
  have hunit : unitAt? (i :: rest) = none := by
    cases rest with
    | nil => rfl
    | cons call rest => simp [unitAt?, hpush]
  have hdrop : (i :: rest).dropWhile isAdd = i :: rest := by simp [isAdd, hadd]
  rw [nextUnit, hdrop, hunit]

/-- A spelled chain that a push stands in front of and a call behind, as where a payload is
written. -/
theorem split_block {chain : List Instruction} {bytes : Bytes}
    (hspells : Spells accessors chain bytes)
    (hbegins : BeginsUnit chain) :
    ∃ us, lookups accessors us = bytes.map some ∧
      ∀ push call rest, call.opcode = .callProperty →
        split (push :: (chain ++ call :: rest)) = us :: split rest := by
  obtain ⟨us, hus, hunits⟩ := hspells.exists_units
  obtain ⟨code, unit, hcode, hpre⟩ := hbegins
  refine ⟨us, hus, ?_⟩
  intro push call rest hcall
  have hbegins : BeginsUnit (chain ++ call :: rest) :=
    ⟨code, unit, hcode, hpre.trans (List.prefix_append _ _)⟩
  have hstop : units (call :: rest) = ([], call :: rest) :=
    units_cons (by rw [hcall]; decide) (by rw [hcall]; decide)
  have hwalk : units (chain ++ call :: rest) = (us, call :: rest) := by
    rw [hunits, hstop, List.append_nil]
  have hskip : split (call :: rest) = split rest :=
    split_cons (not_beginsUnit (by rw [hcall]; decide) rest)
  rw [split_cons (not_beginsUnit_push hbegins), split, seekUnit_of_atUnit (atUnit_iff.2 hbegins),
    dif_pos (atUnit_iff.2 hbegins), hwalk, hskip]

/-! ### Names -/

theorem mapped_of_lookups {us : List CallUnit} {bytes : Bytes}
    (h : lookups accessors us = bytes.map some) : mapped accessors us = bytes := by
  have hmapped : mapped accessors us = (lookups accessors us).filterMap id := by
    rw [lookups, List.filterMap_map]
    rfl
  rw [hmapped, h, List.filterMap_map]
  exact List.filterMap_some

/-- The units that spell two texts begin with the first, and the rest of them spell the second. -/
theorem lookups_append {target name : Bytes} {us : List CallUnit}
    (h : lookups accessors us = (target ++ name).map some) :
    target.map some <+: lookups accessors us ∧
      lookups accessors (us.drop target.length) = name.map some := by
  constructor
  · rw [h, List.map_append]
    exact List.prefix_append _ _
  · rw [lookups, List.map_drop, ← lookups, h, List.map_append]
    exact List.drop_left' (List.length_map _)

theorem ne_nil_of_lookups {name : Bytes} {us : List CallUnit}
    (h : lookups accessors us = name.map some) (hname : name ≠ []) : us ≠ [] := by
  rintro rfl
  exact hname (List.map_eq_nil_iff.1 h.symm)

theorem names_of_lookups {target name : Bytes} {us : List CallUnit} {chains : List (List CallUnit)}
    (h : lookups accessors us = (target ++ name).map some) (hname : name ≠ []) :
    names target accessors (us :: chains) = name :: names target accessors chains := by
  obtain ⟨hpre, hdrop⟩ := lookups_append h
  rw [names_of_prefixed hpre (ne_nil_of_lookups hdrop hname), mapped_of_lookups hdrop]

theorem isSome_of_lookups {us : List CallUnit} {bytes : Bytes}
    (h : lookups accessors us = bytes.map some) {unit : CallUnit} (hunit : unit ∈ us) :
    (accessors.get? unit.name).isSome := by
  have hmem : accessors.get? unit.name ∈ lookups accessors us := List.mem_map_of_mem hunit
  rw [h] at hmem
  obtain ⟨byte, _, hbyte⟩ := List.mem_map.1 hmem
  rw [← hbyte]
  rfl

theorem allMapped_cons {us : List CallUnit} {bytes : Bytes} {chains : List (List CallUnit)}
    (h : lookups accessors us = bytes.map some) (hchains : AllMapped accessors chains) :
    AllMapped accessors (us :: chains) := by
  intro chain hchain unit hunit
  rcases List.mem_cons.1 hchain with rfl | hchain
  · exact isSome_of_lookups h hunit
  · exact hchains chain hchain unit hunit

end

end PackedMovie.Resource.Order
