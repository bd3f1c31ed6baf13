import PackedMovie.Proofs.Resource.Runs
import PackedMovie.Proofs.Text.Utf8
import PackedMovie.Resource.Order

/-!
# Names among chains

What the search for names finds, said of the chains of a constructor and not of the places in it: a
chain that begins with the target names a resource by what is left of it, or else by the whole next
chain.

Main statement: `resolve_eq_names`.
-/
namespace PackedMovie.Resource.Order

open PackedMovie.Code (Instruction Opcode)
open PackedMovie.Resource.Chain

/-- The bytes that the units of a chain stand for; some may stand for none. -/
def lookups (accessors : Accessors) (chain : List CallUnit) : List (Option UInt8) :=
  chain.map fun unit => accessors.get? unit.name

def mapped (accessors : Accessors) (chain : List CallUnit) : Bytes :=
  chain.filterMap fun unit => accessors.get? unit.name

/-- The names that a list of chains holds. A chain without the target is dropped, and a chain that
gave a name to the target before it is used up. -/
def names (target : Bytes) (accessors : Accessors) : List (List CallUnit) → List Bytes
  | [] => []
  | chain :: chains =>
    if target.map some <+: lookups accessors chain then
      match chain.drop target.length with
      | unit :: units => mapped accessors (unit :: units) :: names target accessors chains
      | [] =>
        match chains with
        | [] => [[]]
        | next :: others => mapped accessors next :: names target accessors others
    else names target accessors chains

/-- Every call in a chain is one of an accessor. -/
def AllMapped (accessors : Accessors) (chains : List (List CallUnit)) : Prop :=
  ∀ chain ∈ chains, ∀ unit ∈ chain, (accessors.get? unit.name).isSome

section

variable {accessors : Accessors} {strict : Bool}

/-! ### One chain -/

theorem spell_eq {is : List Instruction}
    (h : strict = true → ∀ unit ∈ (units is).1, (accessors.get? unit.name).isSome) :
    spell strict accessors is = (.ok (mapped accessors (units is).1), (units is).2) := by
  fun_induction spell strict accessors is with
  | case1 is hnone =>
    have hnext : nextUnit is = (none, (nextUnit is).2) := Prod.ext hnone rfl
    rw [units_of_none hnext]
    rfl
  | case2 is unit hsome byte hbyte r ih =>
    have hnext : nextUnit is = (some unit, (nextUnit is).2) := Prod.ext hsome rfl
    rw [units_of_some hnext] at h ⊢
    have hrest := ih fun hstrict u hu => h hstrict u (List.mem_cons_of_mem unit hu)
    simp only [r, hrest, mapped, List.filterMap_cons, hbyte]
    rfl
  | case3 is unit hsome hbyte hstrict =>
    have hnext : nextUnit is = (some unit, (nextUnit is).2) := Prod.ext hsome rfl
    rw [units_of_some hnext] at h
    have hunit := h hstrict unit List.mem_cons_self
    rw [hbyte] at hunit
    cases hunit
  | case4 is unit hsome hbyte hstrict ih =>
    have hnext : nextUnit is = (some unit, (nextUnit is).2) := Prod.ext hsome rfl
    rw [units_of_some hnext]
    have hrest := ih fun h => absurd h hstrict
    rw [hrest]
    simp only [mapped, List.filterMap_cons, hbyte]

theorem lookups_cons (unit : CallUnit) (chain : List CallUnit) :
    lookups accessors (unit :: chain) = accessors.get? unit.name :: lookups accessors chain := rfl

theorem matchTarget_of_prefixed {target : Bytes} {is : List Instruction}
    (h : target.map some <+: lookups accessors (units is).1) :
    (matchTarget accessors target is).1 = true ∧
      units (matchTarget accessors target is).2 =
        ((units is).1.drop target.length, (units is).2) := by
  fun_induction matchTarget accessors target is with
  | case1 is => exact ⟨rfl, rfl⟩
  | case2 expected target is unit rest hnext hbyte ih =>
    rw [units_of_some hnext] at h ⊢
    rw [List.map_cons, lookups_cons, List.cons_prefix_cons] at h
    exact ih h.2
  | case3 expected target is unit rest hnext hbyte =>
    rw [units_of_some hnext, List.map_cons, lookups_cons, List.cons_prefix_cons] at h
    exact absurd h.1.symm hbyte
  | case4 expected target is rest hnext =>
    rw [units_of_none hnext] at h
    simp [lookups] at h

theorem matchTarget_of_not_prefixed {target : Bytes} {is : List Instruction}
    (h : ¬ target.map some <+: lookups accessors (units is).1) :
    matchTarget accessors target is = (false, (units is).2) := by
  fun_induction matchTarget accessors target is with
  | case1 is => exact absurd List.nil_prefix h
  | case2 expected target is unit rest hnext hbyte ih =>
    rw [units_of_some hnext] at h ⊢
    apply ih
    intro hpre
    apply h
    rw [List.map_cons, lookups_cons, List.cons_prefix_cons]
    exact ⟨hbyte.symm, hpre⟩
  | case3 expected target is unit rest hnext hbyte => rw [units_of_some hnext, skip]
  | case4 expected target is rest hnext =>
    rw [units_of_none hnext, skip, units_of_none (nextUnit_rest_of_none hnext)]

/-! ### One name -/

/-- A chain that goes on behind the target is the name. -/
theorem spellNext_same {is : List Instruction} (hgoes : (units is).1 ≠ [])
    (h : strict = true → ∀ unit ∈ (units is).1, (accessors.get? unit.name).isSome) :
    spellNext strict accessors is = (.ok (mapped accessors (units is).1), (units is).2) := by
  rw [← units_seekUnit hgoes] at h ⊢
  exact spell_eq h

/-- Behind a chain that has ended the next one is the name; without a next one the name is empty. -/
theorem spellNext_next {is : List Instruction} (hends : (units is).1 = [])
    (h : strict = true → AllMapped accessors (split (units is).2)) :
    ∃ bytes rest, spellNext strict accessors is = (.ok bytes, rest) ∧
      (match split (units is).2 with
        | [] => bytes = [] ∧ split rest = []
        | next :: others => bytes = mapped accessors next ∧ split rest = others) := by
  rw [spellNext, seekUnit_of_units_nil hends]
  by_cases hunit : atUnit (seekUnit (units is).2) = true
  · have hsplit : split (units is).2 = (units (seekUnit (units is).2)).1 ::
        split (units (seekUnit (units is).2)).2 := by rw [split, dif_pos hunit]
    rw [hsplit] at h ⊢
    have hspell := spell_eq fun hstrict => h hstrict _ List.mem_cons_self
    exact ⟨_, _, hspell, rfl, rfl⟩
  · have hnil : seekUnit (units is).2 = [] := (atUnit_seekUnit _).resolve_right hunit
    have hsplit : split (units is).2 = [] := by rw [split, dif_neg hunit]
    have hnext : nextUnit [] = (none, []) := rfl
    have hspell : spell strict accessors [] =
        (.ok (mapped accessors (units []).1), (units []).2) := by
      apply spell_eq
      rw [units_of_none hnext]
      simp
    rw [units_of_none hnext] at hspell
    rw [hsplit, hnil]
    refine ⟨[], [], hspell, rfl, ?_⟩
    rw [split, dif_neg]
    decide

theorem prefix_of_matchTarget {target : Bytes} {is : List Instruction}
    (h : (matchTarget accessors target is).1 = true) :
    target.map some <+: lookups accessors (units is).1 := by
  by_cases hpre : target.map some <+: lookups accessors (units is).1
  · exact hpre
  · rw [matchTarget_of_not_prefixed hpre] at h
    cases h

theorem names_of_prefixed {target : Bytes} {chain : List CallUnit} {chains : List (List CallUnit)}
    (h : target.map some <+: lookups accessors chain) (hgoes : chain.drop target.length ≠ []) :
    names target accessors (chain :: chains) =
      mapped accessors (chain.drop target.length) :: names target accessors chains := by
  rw [names.eq_def]
  simp only [if_pos h]
  cases hrest : chain.drop target.length with
  | nil => exact absurd hrest hgoes
  | cons unit units => rfl

theorem names_of_not_prefixed {target : Bytes} {chain : List CallUnit}
    {chains : List (List CallUnit)} (h : ¬ target.map some <+: lookups accessors chain) :
    names target accessors (chain :: chains) = names target accessors chains := by
  rw [names.eq_def]
  simp only [if_neg h]

/-- The name behind a matched target is the first of the names that the chains hold. -/
theorem nameBytes_spec (s : Search) {is : List Instruction} (hunit : atUnit (seekUnit is) = true)
    (hmatch : (matchTarget s.accessors s.target (seekUnit is)).1 = true)
    (h : s.strict = true → AllMapped s.accessors (split is)) :
    ∃ bytes rest,
      s.nameBytes (matchTarget s.accessors s.target (seekUnit is)).2 = (.ok bytes, rest) ∧
      names s.target s.accessors (split is) = bytes :: names s.target s.accessors (split rest) ∧
      ∀ chain ∈ split rest, chain ∈ split is := by
  have hsplit : split is = (units (seekUnit is)).1 :: split (units (seekUnit is)).2 := by
    rw [split, dif_pos hunit]
  have hpre := prefix_of_matchTarget hmatch
  obtain ⟨_, hafter⟩ := matchTarget_of_prefixed hpre
  unfold Search.nameBytes
  rw [hsplit] at h ⊢
  generalize (matchTarget s.accessors s.target (seekUnit is)).2 = after at hafter ⊢
  have hfirst : (units after).1 = (units (seekUnit is)).1.drop s.target.length := by rw [hafter]
  have hrest : (units after).2 = (units (seekUnit is)).2 := by rw [hafter]
  rw [← hrest] at h ⊢
  by_cases hends : (units after).1 = []
  · obtain ⟨bytes, rest, hname, hnext⟩ :=
      spellNext_next hends fun hstrict chain hchain =>
        h hstrict chain (List.mem_cons_of_mem _ hchain)
    refine ⟨bytes, rest, hname, ?_⟩
    rw [names.eq_def]
    simp only [if_pos hpre, ← hfirst, hends]
    cases hchains : split (units after).2 with
    | nil =>
      rw [hchains] at hnext
      rw [hnext.1, hnext.2]
      exact ⟨rfl, by simp⟩
    | cons next others =>
      rw [hchains] at hnext
      rw [hnext.1, hnext.2]
      exact ⟨rfl, fun chain hchain => List.mem_cons_of_mem _ (List.mem_cons_of_mem next hchain)⟩
  · refine ⟨mapped s.accessors (units after).1, (units after).2, ?_, ?_, ?_⟩
    · apply spellNext_same hends
      intro hstrict unit hmem
      apply h hstrict _ List.mem_cons_self
      rw [hfirst] at hmem
      exact List.mem_of_mem_drop hmem
    · rw [hfirst] at hends ⊢
      exact names_of_prefixed hpre hends
    · intro chain hchain
      exact List.mem_cons_of_mem _ hchain

/-! ### All names -/

theorem mapM_nameText_error {bytes : Bytes} {e : Error} (h : nameText bytes = .error e)
    (others : List Bytes) : (bytes :: others).mapM nameText = .error e := by
  rw [List.mapM_cons, h]
  rfl

theorem mapM_nameText_ok {bytes : Bytes} {name : String} (h : nameText bytes = .ok name)
    (others : List Bytes) :
    (bytes :: others).mapM nameText = (name :: ·) <$> others.mapM nameText := by
  rw [List.mapM_cons, h]
  rfl

theorem mapM_nameText_encode (order : List String) :
    (order.map Utf8.encode).mapM nameText = .ok order := by
  induction order with
  | nil => rfl
  | cons name order ih =>
    have hname : nameText (Utf8.encode name) = .ok name := by
      rw [nameText, Utf8.decode_encode]
    rw [List.map_cons, mapM_nameText_ok hname, ih]
    rfl

/-- The search finds the names that the chains hold, up to the first that is no text. Strict reading
makes a difference only where a chain calls what is no accessor. -/
theorem namesFrom_eq (s : Search) {is : List Instruction}
    (h : s.strict = true → AllMapped s.accessors (split is)) :
    namesFrom s is = (names s.target s.accessors (split is)).mapM nameText := by
  fun_induction namesFrom s is with
  | case1 is hunit found hmatch e he =>
    obtain ⟨bytes, rest, hname, _⟩ := nameBytes_spec s hunit hmatch h
    rw [hname] at he
    cases he
  | case2 is hunit found hmatch bytes hbytes e he =>
    obtain ⟨bytes', rest, hname, hnames, _⟩ := nameBytes_spec s hunit hmatch h
    rw [hname] at hbytes
    cases hbytes
    rw [hnames, mapM_nameText_error he]
  | case3 is hunit found hmatch bytes hbytes name hname ih =>
    obtain ⟨bytes', rest, hspell, hnames, hsub⟩ := nameBytes_spec s hunit hmatch h
    rw [hspell] at hbytes ih ⊢
    cases hbytes
    rw [hnames, mapM_nameText_ok hname, ih]
    intro hstrict chain hchain
    exact h hstrict chain (hsub chain hchain)
  | case4 is hunit found hmatch ih =>
    have hpre : ¬ s.target.map some <+: lookups s.accessors (units (seekUnit is)).1 := by
      intro hpre
      exact hmatch (matchTarget_of_prefixed hpre).1
    have hfound : found = (false, (units (seekUnit is)).2) := matchTarget_of_not_prefixed hpre
    have hsplit : split is = (units (seekUnit is)).1 :: split (units (seekUnit is)).2 := by
      rw [split, dif_pos hunit]
    rw [hsplit] at h ⊢
    rw [hfound] at ih ⊢
    rw [names_of_not_prefixed hpre]
    apply ih
    intro hstrict chain hchain
    exact h hstrict chain (List.mem_cons_of_mem _ hchain)
  | case5 is hunit =>
    rw [split, dif_neg hunit]
    rfl

end

-- A name behind its target in one chain, a chain without the target, a name in a chain of its own,
-- of which one call is left out, and a target without a name.
example : names [0x77] (Dictionary.ofList [(1, 0x77), (2, 0x61)])
    [[⟨1, 0⟩, ⟨2, 0⟩], [⟨2, 0⟩], [⟨1, 0⟩], [⟨2, 0⟩, ⟨3, 0⟩, ⟨2, 0⟩], [⟨1, 0⟩]] =
      [[0x61], [0x61, 0x61], []] := by
  decide

end PackedMovie.Resource.Order
