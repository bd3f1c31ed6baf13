import PackedMovie.Proofs.Resource.Resolution
import PackedMovie.Proofs.Resource.Strictness

/-!
# Names among other code

Between the places where resources are written a constructor may do anything else, as long as no chain
of it begins with the target. The search passes over such code and finds every name that is written,
whether or not it allows calls of what is no accessor.

Main statement: `resolve_writings`.
-/
namespace PackedMovie.Resource

open PackedMovie.Code (Directive Instruction Opcode located located_append)

namespace Chain

/-! ### Code behind other code -/

/-- No unit begins with these instructions, nor do they continue a unit or a chain that stands in front
of them. -/
def Apart (is : List Instruction) : Prop :=
  ¬ BeginsUnit is ∧ ∀ i ∈ is.head?, i.opcode ≠ .add ∧ i.opcode ≠ .callProperty

section

variable {rest : List Instruction} (hrest : Apart rest)
include hrest

theorem unitAt?_append (is : List Instruction) :
    unitAt? (is ++ rest) = (unitAt? is).map fun found => (found.1, found.2 ++ rest) := by
  match is with
  | [] =>
    have hnone : atUnit rest = false := Bool.eq_false_iff.2 fun h => hrest.1 (atUnit_iff.1 h)
    rw [List.nil_append]
    exact Option.not_isSome_iff_eq_none.1 (Bool.eq_false_iff.1 hnone)
  | [i] =>
    cases rest with
    | nil => rfl
    | cons j rest =>
      have hcall : j.opcode ≠ .callProperty := (hrest.2 j rfl).2
      simp [unitAt?, hcall]
  | i :: call :: is =>
    by_cases hunit : i.opcode = .getLocal0 ∧ call.opcode = .callProperty
    · simp [unitAt?, hunit]
    · simp [unitAt?, hunit]

theorem atUnit_append (is : List Instruction) : atUnit (is ++ rest) = atUnit is := by
  rw [atUnit, unitAt?_append hrest, Option.isSome_map, atUnit]

theorem dropWhile_append (is : List Instruction) :
    (is ++ rest).dropWhile isAdd = is.dropWhile isAdd ++ rest := by
  induction is with
  | nil =>
    cases rest with
    | nil => rfl
    | cons j rest => simp [isAdd, (hrest.2 j rfl).1]
  | cons i is ih =>
    rw [List.cons_append, List.dropWhile_cons, List.dropWhile_cons, ih]
    split <;> rfl

theorem nextUnit_append (is : List Instruction) :
    nextUnit (is ++ rest) = ((nextUnit is).1, (nextUnit is).2 ++ rest) := by
  unfold nextUnit
  rw [dropWhile_append hrest, unitAt?_append hrest]
  cases unitAt? (is.dropWhile isAdd) <;> rfl

/-- The walk over a chain does not go on into the code behind. -/
theorem units_append (is : List Instruction) :
    units (is ++ rest) = ((units is).1, (units is).2 ++ rest) := by
  fun_induction units is with
  | case1 is unit hsome r ih =>
    have hnext := nextUnit_append hrest is
    rw [hsome] at hnext
    rw [units_of_some hnext, ih]
  | case2 is hnone =>
    have hnext := nextUnit_append hrest is
    rw [hnone] at hnext
    rw [units_of_none hnext]

theorem seekUnit_append (is : List Instruction) :
    seekUnit (is ++ rest) =
      if atUnit (seekUnit is) then seekUnit is ++ rest else seekUnit rest := by
  induction is with
  | nil => rfl
  | cons i is ih =>
    have hunit := atUnit_append hrest (i :: is)
    rw [List.cons_append] at hunit ⊢
    rw [seekUnit, seekUnit, hunit]
    by_cases h : atUnit (i :: is) = true
    · rw [if_pos h, if_pos h, if_pos h]
      rfl
    · rw [if_neg h, if_neg h, ih]

end

theorem atUnit_seekUnit_of_units {is : List Instruction} (h : (units is).1 ≠ []) :
    atUnit (seekUnit is) = true := by
  rcases atUnit_seekUnit is with hnil | hunit
  · have hunits := units_seekUnit h
    rw [hnil, units_of_none rfl] at hunits
    exact absurd (congrArg Prod.fst hunits).symm h
  · exact hunit

end Chain

namespace Order

open PackedMovie.Resource.Chain

/-! ### Noise -/

/-- No chain among the instructions begins with the target. A call of what is no accessor is nothing
that a target has. -/
def IsNoise (target : Bytes) (accessors : Accessors) (is : List Instruction) : Prop :=
  ∀ chains, IsSplit is chains → ∀ chain ∈ chains, ¬ target.map some <+: lookups accessors chain

theorem isNoise_iff {target : Bytes} {accessors : Accessors} {is : List Instruction} :
    IsNoise target accessors is ↔
      ∀ chain ∈ split is, ¬ target.map some <+: lookups accessors chain :=
  ⟨fun h => h _ (isSplit_split is), fun h _ hsplit => isSplit_iff.1 hsplit ▸ h⟩

theorem namesFrom_of_seekUnit_eq (s : Search) {is others : List Instruction}
    (h : seekUnit is = seekUnit others) : namesFrom s is = namesFrom s others := by
  rw [namesFrom, namesFrom.eq_def s others]
  simp only [h]

theorem namesFrom_cons (s : Search) {i : Instruction} {rest : List Instruction}
    (h : ¬ BeginsUnit (i :: rest)) : namesFrom s (i :: rest) = namesFrom s rest := by
  apply namesFrom_of_seekUnit_eq
  rw [seekUnit, if_neg fun hunit => h (atUnit_iff.1 hunit)]

/-- The search passes over noise. -/
theorem namesFrom_noise (s : Search) {noise rest : List Instruction}
    (hnoise : IsNoise s.target s.accessors noise) (hrest : Apart rest) :
    namesFrom s (noise ++ rest) = namesFrom s rest := by
  rw [isNoise_iff] at hnoise
  fun_induction split noise with
  | case1 noise hunit ih =>
    have hseek := seekUnit_append hrest noise
    rw [if_pos hunit] at hseek
    have hunits := units_append hrest (seekUnit noise)
    have hatUnit : atUnit (seekUnit (noise ++ rest)) = true := by
      rw [hseek, atUnit_append hrest, hunit]
    have hmismatch : matchTarget s.accessors s.target (seekUnit (noise ++ rest)) =
        (false, (units (seekUnit noise)).2 ++ rest) := by
      rw [hseek, matchTarget_of_not_prefixed, hunits]
      rw [hunits]
      exact hnoise _ List.mem_cons_self
    rw [namesFrom_of_not_matched hatUnit (by simp [hmismatch]), hmismatch]
    exact ih fun chain hchain => hnoise chain (List.mem_cons_of_mem _ hchain)
  | case2 noise hunit =>
    apply namesFrom_of_seekUnit_eq
    rw [seekUnit_append hrest, if_neg hunit]

/-! ### Writing -/

/-- Where a resource is written: the object is pushed, the target and the name are spelled with
nothing between them, a property is called, and what the call gives back is dropped. -/
inductive IsWriting (target : Bytes) (accessors : Accessors) : List Instruction → String → Prop where
  | mk {push call pop : Instruction} {literal spelled : List Instruction} {name : String}
      (hpush : push.opcode = .getLocal0) (hliteral : Spells accessors literal target)
      (hspelled : Spells accessors spelled (Utf8.encode name)) (hname : name ≠ "")
      (hcall : call.opcode = .callProperty) (hpop : pop.opcode = .other 0x29) :
      IsWriting target accessors (push :: (literal ++ spelled ++ [call, pop])) name

/-- The names are written one after another. In front of each and behind the last there may be
noise. -/
inductive Writes (target : Bytes) (accessors : Accessors) :
    List Instruction → List String → Prop where
  | done {noise : List Instruction} (hnoise : IsNoise target accessors noise) :
      Writes target accessors noise []
  | write {noise writing rest : List Instruction} {name : String} {names : List String}
      (hnoise : IsNoise target accessors noise) (hwriting : IsWriting target accessors writing name)
      (hrest : Writes target accessors rest names) :
      Writes target accessors (noise ++ (writing ++ rest)) (name :: names)

theorem eq_nil_of_spells {accessors : Accessors} {is : List Instruction} {bytes : Bytes}
    (h : Spells accessors is bytes) (his : is = []) : bytes = [] := by
  cases h with
  | nil => rfl
  | add _ _ => cases his
  | unit hunit _ _ =>
    obtain ⟨_, _⟩ := hunit
    cases his

theorem opcode_head_of_spells {accessors : Accessors} {is : List Instruction} {bytes : Bytes}
    (h : Spells accessors is bytes) : ∀ i ∈ is.head?, i.opcode ≠ .callProperty := by
  intro i hi hcall
  cases h with
  | nil => cases hi
  | add hop _ =>
    cases hi
    rw [hop] at hcall
    cases hcall
  | unit hunit _ _ =>
    obtain ⟨hpush, _⟩ := hunit
    cases hi
    rw [hpush] at hcall
    cases hcall

theorem call_of_beginsUnit {push : Instruction} {is : List Instruction}
    (h : BeginsUnit (push :: is)) : ∃ call ∈ is.head?, call.opcode = .callProperty := by
  obtain ⟨_, _, ⟨_, hcall⟩, _, hcode⟩ := h
  rw [← (List.cons.inj hcode).2]
  exact ⟨_, rfl, hcall⟩

/-- The push in front of a spelled chain does not belong to it. -/
theorem not_beginsUnit_push_spelled {accessors : Accessors} {chain : List Instruction}
    {bytes : Bytes} (hchain : Spells accessors chain bytes) (hbytes : bytes ≠ [])
    (push : Instruction) (rest : List Instruction) : ¬ BeginsUnit (push :: (chain ++ rest)) := by
  intro hbegins
  obtain ⟨call, hhead, hcall⟩ := call_of_beginsUnit hbegins
  have hne : chain ≠ [] := fun hnil => hbytes (eq_nil_of_spells hchain hnil)
  rw [List.head?_append_of_ne_nil _ hne] at hhead
  exact opcode_head_of_spells hchain call hhead hcall

section

variable {name : String}

theorem append_encode_ne_nil (target : Bytes) (hname : name ≠ "") :
    target ++ Utf8.encode name ≠ [] := by
  intro hnil
  exact Utf8.encode_ne_nil hname (List.append_eq_nil_iff.1 hnil).2

theorem apart_writing {target : Bytes} {accessors : Accessors} {writing : List Instruction}
    (h : IsWriting target accessors writing name) (rest : List Instruction) :
    Apart (writing ++ rest) := by
  obtain ⟨hpush, hliteral, hspelled, hname, _, _⟩ := h
  constructor
  · rw [List.cons_append, List.append_assoc]
    exact not_beginsUnit_push_spelled (hliteral.append hspelled) (append_encode_ne_nil _ hname) _ _
  · intro i hi
    cases hi
    rw [hpush]
    decide

end

/-- Behind a matched target the units of the same chain are the name. -/
theorem nameBytes_spelled (s : Search) {name : Bytes} {is : List Instruction} (hname : name ≠ [])
    (h : lookups s.accessors (units is).1 = name.map some) :
    s.nameBytes is = (.ok name, (units is).2) := by
  rw [Search.nameBytes, spellNext_same (ne_nil_of_lookups h hname), mapped_of_lookups h]
  intro _ unit hunit
  exact isSome_of_lookups h hunit

/-- A chain that spells the target and a name gives the name, and the search goes on behind it. -/
theorem namesFrom_spelled (s : Search) {name : String} (hname : name ≠ "")
    {is : List Instruction}
    (h : lookups s.accessors (units is).1 = (s.target ++ Utf8.encode name).map some) :
    namesFrom s is = (name :: ·) <$> namesFrom s (units is).2 := by
  have hgoes := ne_nil_of_lookups h (append_encode_ne_nil _ hname)
  obtain ⟨hbegins, hdrop⟩ := lookups_append h
  rw [← units_seekUnit hgoes] at hbegins
  obtain ⟨hmatch, hafter⟩ := matchTarget_of_prefixed hbegins
  rw [units_seekUnit hgoes] at hafter
  have hfound := nameBytes_spelled s (Utf8.encode_ne_nil hname) (by rw [hafter]; exact hdrop)
  have htext : nameText (Utf8.encode name) = .ok name := by
    rw [nameText, Utf8.decode_encode]
  rw [namesFrom_of_matched (atUnit_seekUnit_of_units hgoes) hmatch]
  simp only [hfound, hafter, htext, bind, Except.bind]

/-- Where a name is written it is found, and the search goes on behind it. -/
theorem namesFrom_writing (s : Search) {writing : List Instruction} {name : String}
    (h : IsWriting s.target s.accessors writing name) (rest : List Instruction) :
    namesFrom s (writing ++ rest) = (name :: ·) <$> namesFrom s rest := by
  obtain @⟨push, call, pop, literal, spelled, _, _, hliteral, hspelled, hname, hcall, hpop⟩ := h
  have hchain := hliteral.append hspelled
  have hpush := not_beginsUnit_push_spelled hchain (append_encode_ne_nil _ hname) push
    (call :: pop :: rest)
  obtain ⟨us, hus, hwalk⟩ := hchain.exists_units
  have hstop : units (call :: pop :: rest) = ([], call :: pop :: rest) :=
    units_cons (by rw [hcall]; decide) (by rw [hcall]; decide)
  have hunits : units (literal ++ spelled ++ call :: pop :: rest) = (us, call :: pop :: rest) := by
    rw [hwalk, hstop, List.append_nil]
  have hafterCall := not_beginsUnit (i := call) (by rw [hcall]; decide) (pop :: rest)
  have hafterPop := not_beginsUnit (i := pop) (by rw [hpop]; decide) rest
  have hlayout : push :: (literal ++ spelled ++ [call, pop]) ++ rest =
      push :: (literal ++ spelled ++ call :: pop :: rest) := by simp
  rw [hlayout, namesFrom_cons s hpush, namesFrom_spelled s hname (by rw [hunits]; exact hus), hunits,
    namesFrom_cons s hafterCall, namesFrom_cons s hafterPop]

theorem namesFrom_writes (s : Search) {body : List Instruction} {names : List String}
    (h : Writes s.target s.accessors body names) : namesFrom s body = .ok names := by
  induction h with
  | @done noise hnoise =>
    have hnil : Apart [] := ⟨fun h => absurd (atUnit_iff.2 h) (by decide), by simp⟩
    rw [← List.append_nil noise, namesFrom_noise s hnoise hnil, namesFrom_nil]
  | write hnoise hwriting _ ih =>
    rw [namesFrom_noise s hnoise (apart_writing hwriting _), namesFrom_writing s hwriting, ih]
    rfl

/-- Behind the first call of the base constructor the names that are written are found, each once and
in their order, whatever else is done between them and whatever calls the search allows. -/
theorem resolve_writings {target : Bytes} {accessors : Accessors}
    {front body : List Instruction} {base : Instruction} {names : List String}
    (hfront : ∀ i ∈ front, i.opcode ≠ .constructSuper) (hbase : base.opcode = .constructSuper)
    (hbody : Writes target accessors body names) (strict : Bool) :
    resolve ⟨target, strict, accessors⟩ (front ++ base :: body) = .ok names := by
  have hbehind : behindSuper (front ++ base :: body) = body := by
    have hskip : ∀ i ∈ front, (i.opcode != .constructSuper) = true := by
      intro i hi
      rw [bne_iff_ne]
      exact hfront i hi
    rw [behindSuper, List.dropWhile_append_of_pos hskip, List.dropWhile_cons,
      if_neg (by simp [hbase])]
    rfl
  rw [resolve_eq_namesFrom, hbehind]
  exact namesFrom_writes ⟨target, strict, accessors⟩ hbody

/-- The code that a constructor is given for a resource is such a place. -/
theorem isWriting_writing {target : Bytes} {accessors : Accessors} {nameOf : UInt8 → UInt32}
    {name : String} (htarget : ∀ b ∈ target, accessors.get? (nameOf b) = some b)
    (hspelled : ∀ b ∈ Utf8.encode name, accessors.get? (nameOf b) = some b) (hname : name ≠ "")
    (writer : UInt32) (offset : Nat) :
    IsWriting target accessors
      (located offset (Packing.writing nameOf writer target (Utf8.encode name))) name := by
  rw [Packing.writing, located, located_append, located_append]
  exact .mk rfl (Packing.spells_chain htarget _) (Packing.spells_chain hspelled _) hname rfl rfl

/-- Half a unit, a chain that calls what is no accessor and ends in additions, a second call of the
base constructor and half a unit again. -/
def scraps : List Directive :=
  [.callProperty 9 0, .getLocal0, .callProperty 1 0, .getLocal0, .callProperty 9 0, .add, .add,
    .constructSuper 0, .getLocal0]

/-- Chains that share a byte with the target. -/
def misspelled : List Directive :=
  [.add, .getLocal0, .callProperty 1 0, .getLocal0, .callProperty 2 0, .add, .pop, .getLocal0,
    .callProperty 1 0, .getLocal0]

/-- Resources are written among code of all kinds. -/
def scattered (names : List String) : List Instruction :=
  names.foldr (fun name rest => located 4 scraps ++
    (located 40 (Packing.writing letterName 9 [0x77, 0x77] (Utf8.encode name)) ++ rest))
    (located 80 misspelled)
where
  letterName (b : UInt8) : UInt32 := if b = 0x77 then 1 else 2

theorem resolve_writings_scattered :
    ((∀ i ∈ located 0 [.getLocal0, .pushScope], i.opcode ≠ .constructSuper) ∧
        Writes [0x77, 0x77] letters (scattered ["a", "wwa"]) ["a", "wwa"]) ∧
      resolve ⟨[0x77, 0x77], true, letters⟩
        (located 0 [.getLocal0, .pushScope] ++
          (Directive.constructSuper 0).instructionAt 2 :: scattered ["a", "wwa"]) =
        .ok ["a", "wwa"] := by
  have hfront : ∀ i ∈ located 0 [.getLocal0, .pushScope], i.opcode ≠ .constructSuper := by decide
  have hscraps : IsNoise [0x77, 0x77] letters (located 4 scraps) :=
    isNoise_iff.2 (by decide +kernel)
  have hmisspelled : IsNoise [0x77, 0x77] letters (located 80 misspelled) :=
    isNoise_iff.2 (by decide +kernel)
  have htarget : ∀ b ∈ [0x77, 0x77], letters.get? (scattered.letterName b) = some b := by
    decide +kernel
  have hbody : Writes [0x77, 0x77] letters (scattered ["a", "wwa"]) ["a", "wwa"] :=
    .write hscraps (isWriting_writing htarget (by decide +kernel) (by decide +kernel) 9 40) <|
      .write hscraps (isWriting_writing htarget (by decide +kernel) (by decide +kernel) 9 40) <|
        .done hmisspelled
  exact ⟨⟨hfront, hbody⟩, resolve_writings hfront rfl hbody true⟩

end Order
end PackedMovie.Resource
