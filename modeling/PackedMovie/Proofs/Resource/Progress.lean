import Mathlib.Data.List.Chain
import PackedMovie.Proofs.Resource.Coverage

/-!
# The search moves on

A round of the search goes to the next call unit, compares the target there and, if it is met,
spells the name behind it. An empty target takes no unit, and a name takes none where nothing is left
of the chain, but in every round one of both gets past the unit that was found.

Main statement: `scan_progresses`.
-/
namespace PackedMovie.Resource

open PackedMovie.Code (Instruction Opcode)

namespace Chain

/-! ### What a round leaves -/

theorem spell_suffix (strict : Bool) (accessors : Accessors) (is : List Instruction) :
    (spell strict accessors is).2 <:+ is := by
  fun_induction spell strict accessors is with
  | case1 is _ => exact nextUnit_suffix rfl
  | case2 is _ _ _ _ _ ih => exact ih.trans (nextUnit_suffix rfl)
  | case3 is => exact nextUnit_suffix rfl
  | case4 is _ _ _ _ ih => exact ih.trans (nextUnit_suffix rfl)

theorem spellNext_suffix (strict : Bool) (accessors : Accessors) (is : List Instruction) :
    (spellNext strict accessors is).2 <:+ is :=
  (spell_suffix strict accessors _).trans (seekUnit_suffix is)

theorem seekUnit_seekUnit (is : List Instruction) : seekUnit (seekUnit is) = seekUnit is := by
  rcases atUnit_seekUnit is with hnil | hunit
  · rw [hnil, seekUnit]
  · exact seekUnit_of_atUnit hunit

section

variable {accessors : Accessors} {target : Bytes} {is : List Instruction}

/-- Only a target that is not empty can be missed, and then its first byte took a unit. -/
theorem mismatch_length_le (hunit : atUnit is = true)
    (hmatch : (matchTarget accessors target is).1 = false) :
    (matchTarget accessors target is).2.length + 2 ≤ is.length := by
  cases target with
  | nil => cases hmatch
  | cons b target => exact matchTarget_cons_length_lt accessors b target hunit

/-- Behind an empty target the name begins at once. -/
theorem name_length_le (strict : Bool) (hunit : atUnit is = true) :
    (spellNext strict accessors (matchTarget accessors target is).2).2.length + 2 ≤ is.length := by
  cases target with
  | nil =>
    rw [matchTarget, spellNext, seekUnit_of_atUnit hunit]
    exact spell_length_lt strict accessors hunit
  | cons b target =>
    have hmatch := matchTarget_cons_length_lt accessors b target hunit
    have hname := (spellNext_suffix strict accessors
      (matchTarget accessors (b :: target) is).2).length_le
    omega

end

theorem allUnits_suffix {part is : List Instruction} (h : part <:+ is) :
    allUnits part <:+ allUnits is := by
  obtain ⟨front, rfl⟩ := h
  induction front with
  | nil => exact List.suffix_refl _
  | cons i front ih =>
    refine ih.trans ?_
    rw [List.cons_append]
    cases front ++ part with
    | nil => exact List.suffix_refl _
    | cons call rest =>
      rw [allUnits_cons_cons]
      exact List.suffix_append _ _

end Chain

namespace Walker

open PackedMovie.Resource.Chain
open PackedMovie.Resource.Order (behindSuper namesFrom nameText resolve)

/-- What lies ahead is a rest of all instructions. -/
def IsPlaced (w : Walker) : Prop := w.rest <:+ w.instructions

/-- One round of the search, and where it leaves the walker. There is none without a unit ahead, and
no name in one that misses the target. -/
def round (target : Bytes) (w : Walker) : Except Error (Option (Option String × Walker)) :=
  match w.nextString with
  | (false, _) => .ok none
  | (true, here) =>
    match here.matchTarget target with
    | (false, there) => .ok (some (none, there))
    | (true, there) =>
      let spelled := there.nextString.2.spellNext
      spelled.1 >>= fun bytes => nameText bytes >>= fun name =>
        .ok (some (some name, spelled.2))

/-- The search as a run of rounds: where each round begins and where the last one ends, and what comes
of the search. -/
inductive Scans (target : Bytes) : Walker → List Nat → Except Error Order → Prop where
  | ends {w : Walker} (h : round target w = .ok none) : Scans target w [w.position] (.ok [])
  | fails {w : Walker} {e : Error} (h : round target w = .error e) :
      Scans target w [w.position] (.error e)
  | goesOn {w v : Walker} {name? : Option String} {places : List Nat} {outcome : Except Error Order}
      (h : round target w = .ok (some (name?, v))) (hrest : Scans target v places outcome) :
      Scans target w (w.position :: places) ((name?.toList ++ ·) <$> outcome)

section

variable {target : Bytes} {w v : Walker} {name? : Option String}

/-! ### One round -/

theorem round_of_no_unit (h : ¬ atUnit (seekUnit w.rest) = true) : round target w = .ok none := by
  have hnil : seekUnit w.rest = [] := (atUnit_seekUnit w.rest).resolve_right h
  simp only [round, nextString, hnil]
  rfl

theorem nextString_of_unit (h : atUnit (seekUnit w.rest) = true) :
    w.nextString = (true, w.moveTo (seekUnit w.rest)) := by
  have hne : seekUnit w.rest ≠ [] := by
    intro hnil
    rw [hnil] at h
    cases h
  simp [nextString, hne]

theorem round_of_not_matched (hunit : atUnit (seekUnit w.rest) = true)
    (hmatch : (Chain.matchTarget w.accessors target (seekUnit w.rest)).1 = false) :
    round target w = .ok (some (none,
      w.moveTo (Chain.matchTarget w.accessors target (seekUnit w.rest)).2)) := by
  simp only [round, nextString_of_unit hunit, Walker.matchTarget, moveTo, hmatch]

theorem round_of_matched (hunit : atUnit (seekUnit w.rest) = true)
    (hmatch : (Chain.matchTarget w.accessors target (seekUnit w.rest)).1 = true) :
    round target w =
      let spelled := Chain.spellNext w.strict w.accessors
        (Chain.matchTarget w.accessors target (seekUnit w.rest)).2
      spelled.1 >>= fun bytes => nameText bytes >>= fun name =>
        .ok (some (some name, w.moveTo spelled.2)) := by
  simp only [round, nextString_of_unit hunit, Walker.matchTarget, moveTo, hmatch]
  simp only [nextString, moveTo, Walker.spellNext, Chain.spellNext, seekUnit_seekUnit]

/-- A round that finds a unit leaves a rest of what is behind it. -/
theorem round_passes (h : round target w = .ok (some (name?, v))) :
    v = w.moveTo v.rest ∧
      ∃ unit behind, unitAt? (seekUnit w.rest) = some (unit, behind) ∧ v.rest <:+ behind := by
  by_cases hunit : atUnit (seekUnit w.rest) = true
  · have hleft : v = w.moveTo v.rest ∧ v.rest <:+ seekUnit w.rest ∧
        v.rest.length + 2 ≤ (seekUnit w.rest).length := by
      have hmatched := matchTarget_suffix w.accessors target (seekUnit w.rest)
      cases hmatch : (Chain.matchTarget w.accessors target (seekUnit w.rest)).1 with
      | false =>
        rw [round_of_not_matched hunit hmatch] at h
        cases h
        exact ⟨rfl, hmatched, mismatch_length_le hunit hmatch⟩
      | true =>
        rw [round_of_matched hunit hmatch] at h
        simp only [bind, Except.bind] at h
        split at h
        · cases h
        · split at h
          · cases h
          · cases h
            exact ⟨rfl, (spellNext_suffix _ _ _).trans hmatched, name_length_le w.strict hunit⟩
    obtain ⟨hv, hsuffix, hlength⟩ := hleft
    obtain ⟨⟨unit, behind⟩, hbehind⟩ := Option.isSome_iff_exists.1 hunit
    have hpassed := unitAt?_length hbehind
    obtain ⟨code, -, hcode⟩ := unitAt?_eq_some_iff.1 hbehind
    refine ⟨hv, unit, behind, hbehind, ?_⟩
    refine List.suffix_of_suffix_length_le hsuffix ?_ (by omega)
    rw [hcode]
    exact List.suffix_append code behind
  · rw [round_of_no_unit hunit] at h
    cases h

theorem round_length_le (h : round target w = .ok (some (name?, v))) :
    v.rest.length + 2 ≤ w.rest.length := by
  obtain ⟨-, unit, behind, hbehind, hsuffix⟩ := round_passes h
  have hpassed := unitAt?_length hbehind
  have hseek := seekUnit_length_le w.rest
  have hrest := hsuffix.length_le
  omega

/-- The unit that a round finds is not ahead any more. -/
theorem round_allUnits_lt (h : round target w = .ok (some (name?, v))) :
    (allUnits v.rest).length < (allUnits w.rest).length := by
  obtain ⟨-, unit, behind, hbehind, hsuffix⟩ := round_passes h
  obtain ⟨code, hcode, hseek⟩ := unitAt?_eq_some_iff.1 hbehind
  rw [← allUnits_seekUnit w.rest, hseek, allUnits_unit hcode, List.length_cons]
  exact Nat.lt_succ_of_le (allUnits_suffix hsuffix).length_le

theorem round_isPlaced (hw : w.IsPlaced) (h : round target w = .ok (some (name?, v))) :
    v.IsPlaced := by
  obtain ⟨hv, unit, behind, hbehind, hsuffix⟩ := round_passes h
  obtain ⟨code, -, hcode⟩ := unitAt?_eq_some_iff.1 hbehind
  have hseek : behind <:+ seekUnit w.rest := by
    rw [hcode]
    exact List.suffix_append code behind
  rw [IsPlaced, hv]
  exact ((hsuffix.trans hseek).trans (seekUnit_suffix w.rest)).trans hw

/-- A round moves the walker over both instructions of a unit at least. -/
theorem round_position_le (hw : w.IsPlaced) (h : round target w = .ok (some (name?, v))) :
    w.position + 2 ≤ v.position := by
  have hlength := round_length_le h
  have hrest := hw.length_le
  have hsame : v.instructions = w.instructions := by
    rw [(round_passes h).1]
    rfl
  rw [position, position, hsame]
  omega

/-! ### All rounds -/

/-- The names ahead are those of the first round and then those ahead of where it ends. -/
theorem namesFrom_eq_round (target : Bytes) (w : Walker) :
    namesFrom ⟨target, w.strict, w.accessors⟩ w.rest =
      round target w >>= fun
        | none => .ok []
        | some (name?, v) =>
          (name?.toList ++ ·) <$> namesFrom ⟨target, v.strict, v.accessors⟩ v.rest := by
  by_cases hunit : atUnit (seekUnit w.rest) = true
  · cases hmatch : (Chain.matchTarget w.accessors target (seekUnit w.rest)).1 with
    | false =>
      rw [round_of_not_matched hunit hmatch, Order.namesFrom_of_not_matched hunit (by simp [hmatch])]
      exact (id_map _).symm
    | true =>
      rw [round_of_matched hunit hmatch, Order.namesFrom_of_matched hunit hmatch]
      simp only [bind_assoc]
      rfl
  · rw [round_of_no_unit hunit, Order.namesFrom_of_no_unit hunit]
    rfl

theorem exists_scans (target : Bytes) (w : Walker) :
    ∃ places, Scans target w places (namesFrom ⟨target, w.strict, w.accessors⟩ w.rest) := by
  induction hlength : w.rest.length using Nat.strong_induction_on generalizing w with
  | h length ih =>
    subst hlength
    rw [namesFrom_eq_round]
    cases hround : round target w with
    | error e => exact ⟨_, .fails hround⟩
    | ok next? =>
      cases next? with
      | none => exact ⟨_, .ends hround⟩
      | some next =>
        obtain ⟨name?, v⟩ := next
        have hless := round_length_le hround
        obtain ⟨places, hrest⟩ := ih v.rest.length (by omega) v rfl
        exact ⟨_, .goesOn hround hrest⟩

variable {places : List Nat} {outcome : Except Error Order}

theorem Scans.unique {others : List Nat} {other : Except Error Order}
    (h : Scans target w places outcome) (hother : Scans target w others other) :
    others = places ∧ other = outcome := by
  induction h generalizing others other with
  | ends hround =>
    cases hother with
    | ends _ => exact ⟨rfl, rfl⟩
    | fails hround' => cases hround.symm.trans hround'
    | goesOn hround' _ => cases hround.symm.trans hround'
  | fails hround =>
    cases hother with
    | ends hround' => cases hround.symm.trans hround'
    | fails hround' =>
      cases hround.symm.trans hround'
      exact ⟨rfl, rfl⟩
    | goesOn hround' _ => cases hround.symm.trans hround'
  | goesOn hround _ ih =>
    cases hother with
    | ends hround' => cases hround.symm.trans hround'
    | fails hround' => cases hround.symm.trans hround'
    | goesOn hround' hrest' =>
      cases hround.symm.trans hround'
      obtain ⟨rfl, rfl⟩ := ih hrest'
      exact ⟨rfl, rfl⟩

theorem position_le (w : Walker) : w.position ≤ w.instructions.length := Nat.sub_le _ _

theorem Scans.head?_eq (h : Scans target w places outcome) : places.head? = some w.position := by
  cases h <;> rfl

/-- From place to place the search gets on by two instructions at least. -/
theorem Scans.isChain (h : Scans target w places outcome) (hw : w.IsPlaced) :
    places.IsChain fun place next => place + 2 ≤ next := by
  induction h with
  | ends _ => exact .singleton _
  | fails _ => exact .singleton _
  | goesOn hround hrest ih =>
    refine List.isChain_cons.2 ⟨fun next hnext => ?_, ih (round_isPlaced hw hround)⟩
    rw [hrest.head?_eq] at hnext
    cases hnext
    exact round_position_le hw hround

theorem Scans.place_le (h : Scans target w places outcome) :
    ∀ place ∈ places, place ≤ w.instructions.length := by
  induction h with
  | ends _ => simp [position_le]
  | fails _ => simp [position_le]
  | goesOn hround _ ih =>
    rw [(round_passes hround).1] at ih
    exact List.forall_mem_cons.2 ⟨position_le _, ih⟩

/-- There are no more rounds than units ahead. -/
theorem Scans.length_le (h : Scans target w places outcome) :
    places.length ≤ (allUnits w.rest).length + 1 := by
  induction h with
  | ends _ => simp
  | fails _ => simp
  | goesOn hround _ ih =>
    have hless := round_allUnits_lt hround
    rw [List.length_cons]
    omega

theorem Scans.length_lt (h : Scans target w places outcome) {order : Order}
    (houtcome : outcome = .ok order) : order.length < places.length := by
  induction h generalizing order with
  | ends _ =>
    cases houtcome
    exact Nat.one_pos
  | fails _ => cases houtcome
  | @goesOn _ _ name? _ outcome _ _ ih =>
    cases outcome with
    | error e => cases houtcome
    | ok names =>
      cases houtcome
      have hnames := ih rfl
      cases name? with
      | none => exact Nat.lt_succ_of_lt hnames
      | some name => exact Nat.succ_lt_succ hnames

end

/-! ### A constructor -/

theorem behindSuper_suffix (is : List Instruction) : behindSuper is <:+ is :=
  (List.tail_suffix _).trans (List.dropWhile_suffix _)

/-- Where the search begins. -/
theorem seekPast_constructSuper (is : List Instruction) (accessors : Accessors) (strict : Bool) :
    ((start is accessors strict).seekPast .constructSuper).2 =
      (start is accessors strict).moveTo (behindSuper is) := by
  have hseek : seekPast? .constructSuper (start is accessors strict).rest = _ :=
    Order.seekPast?_eq .constructSuper is
  rw [seekPast, hseek, behindSuper]
  cases is.dropWhile (·.opcode != .constructSuper) <;> rfl

/-- Behind the call of the base constructor there is one run of rounds, and what comes of it is the
order. Each round moves the walker by at least two instructions, up to the end at most, and no two
rounds are at one unit; so a name for each unit is the most that can be found. -/
theorem scan_progresses (target : Bytes) (accessors : Accessors) (strict : Bool)
    (is : List Instruction) :
    ∃ places, (∀ others outcome,
        Scans target ((start is accessors strict).seekPast .constructSuper).2 others outcome ↔
          others = places ∧ outcome = resolve ⟨target, strict, accessors⟩ is) ∧
      places.IsChain (fun place next => place + 2 ≤ next) ∧ (∀ place ∈ places, place ≤ is.length) ∧
      places.length ≤ (allUnits (behindSuper is)).length + 1 ∧
      ∀ order, resolve ⟨target, strict, accessors⟩ is = .ok order →
        order.length < places.length ∧ order.length ≤ (allUnits (behindSuper is)).length := by
  have hplaced : IsPlaced ((start is accessors strict).moveTo (behindSuper is)) :=
    behindSuper_suffix is
  obtain ⟨places, hscans⟩ :=
    exists_scans target ((start is accessors strict).moveTo (behindSuper is))
  have hresolve : resolve ⟨target, strict, accessors⟩ is = _ := Order.resolve_eq_namesFrom _ is
  have hlength := hscans.length_le
  rw [seekPast_constructSuper, hresolve]
  refine ⟨places, fun others outcome => ⟨hscans.unique, ?_⟩, hscans.isChain hplaced,
    hscans.place_le, hlength, fun order horder => ?_⟩
  · rintro ⟨rfl, rfl⟩
    exact hscans
  · have hnames := hscans.length_lt horder
    exact ⟨hnames, Nat.le_of_lt_succ (Nat.lt_of_lt_of_le hnames hlength)⟩

/-- An empty target is met at every chain, and the name is the chain itself. -/
theorem scan_progresses_nothingSought :
    resolve ⟨[], true, Order.letters⟩ (Order.spelling [2] ++ Order.spelling [2]) =
        .ok ["wa", "wa"] ∧
      ∃ places, Scans [] ((start (Order.spelling [2] ++ Order.spelling [2]) Order.letters true).seekPast
          .constructSuper).2 places (.ok ["wa", "wa"]) ∧
        places.IsChain (fun place next => place + 2 ≤ next) ∧ 2 < places.length := by
  have hresolve : resolve ⟨[], true, Order.letters⟩ (Order.spelling [2] ++ Order.spelling [2]) =
      .ok ["wa", "wa"] := by decide +kernel
  obtain ⟨places, hscans, hchain, -, -, hnames⟩ :=
    scan_progresses [] Order.letters true (Order.spelling [2] ++ Order.spelling [2])
  exact ⟨hresolve, places, (hscans _ _).2 ⟨rfl, hresolve.symm⟩, hchain, (hnames _ hresolve).1⟩

end Walker
end PackedMovie.Resource
