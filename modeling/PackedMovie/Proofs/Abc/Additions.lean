import Mathlib.Data.List.Forall2
import PackedMovie.Proofs.Abc.Assembly
import PackedMovie.Proofs.Abc.RoundTrip

/-!
# What steps add

Whatever is added after a step, its index leads to what the step added: a string to the string, a
name to its text, a method to the method and a class to both its halves and its name. A class half
under a new name may be held while other things are added, and be filled and added later. The
program is one that a file can hold, so it is read back from its written form.

Main statement: `reached_keeps`.
-/
namespace PackedMovie.Abc

/-! ### Tables that grow -/

theorem fits_of_grown {α : Type} {front whole : List α} (h : front <+: whole)
    (hwhole : Fits whole) : Fits front := Nat.lt_of_le_of_lt h.length_le hwhole

theorem listed_of_grown {α : Type} {P : α → Prop} {front whole : List α} (h : front <+: whole)
    (hwhole : Listed P whole) : Listed P front :=
  ⟨fits_of_grown h hwhole.fits, fun a ha => hwhole.each a (h.subset ha)⟩

theorem getElem?_of_grown {α : Type} {front whole : List α} (h : front <+: whole) {i : Nat} {a : α}
    (ha : front[i]? = some a) : whole[i]? = some a := by
  obtain ⟨back, rfl⟩ := h
  rw [List.getElem?_append_left (List.getElem?_eq_some_iff.1 ha).1, ha]

theorem head?_append_of_head? {α : Type} {front : List α} {a : α} (h : front.head? = some a)
    (back : List α) : (front ++ back).head? = some a := by
  rw [List.head?_append, h]
  rfl

/-! ### Methods -/

/-- The methods that can be put together step by step. -/
inductive Method.Built : Method → Prop where
  | empty : Built .empty
  | name {m : Method} (name : UInt32) (h : Built m) : Built (m.withName name)
  | param {m : Method} (h : Built m) : Built m.addParam
  | rest {m : Method} (value : Bool) (h : Built m) : Built (m.withRest value)
  | body {m : Method} (maxStack : UInt32) (code : Bytes) (h : Built m) :
    Built (m.withBody maxStack code)

namespace Method.Built

variable {m : Method}

/-- No flag can be set but the one for a list of arguments. -/
theorem flags (h : m.Built) : m.flags = 0 ∨ m.flags = needRestFlag := by
  induction h with
  | empty => exact .inl rfl
  | name _ _ ih => exact ih
  | param _ ih => exact ih
  | rest value _ ih =>
    cases value with
    | true =>
      right
      rcases ih with ih | ih <;> simp only [withRest, if_pos, ih] <;> decide
    | false =>
      left
      rcases ih with ih | ih <;> simp only [withRest, ih] <;> decide
  | body _ _ _ ih => exact ih

theorem options (h : m.Built) : m.options = [] := by
  induction h with
  | empty => rfl
  | _ => assumption

theorem paramNames (h : m.Built) : m.paramNames = [] := by
  induction h with
  | empty => rfl
  | _ => assumption

/-- A body has nothing but code. -/
theorem plain_body (h : m.Built) : ∀ b ∈ m.body, b.handlers = [] ∧ b.traits = [] := by
  induction h with
  | empty => exact fun b hb => by cases hb
  | body =>
    intro b hb
    cases hb
    exact ⟨rfl, rfl⟩
  | _ => assumption

theorem hasParamNames (h : m.Built) : m.hasParamNames = false := by
  rcases h.flags with hflags | hflags <;> rw [Method.hasParamNames, hflags] <;> decide

theorem wellFormed (h : m.Built) (hparams : Fits m.paramTypes)
    (hcode : ∀ b ∈ m.body, Fits b.code) : m.WellFormed := by
  constructor
  · constructor
    · exact hparams
    · rw [h.options]
      exact fits_nil
    · exact fun _ => h.options
    · exact fun _ => h.paramNames
    · intro hnames
      rw [h.hasParamNames] at hnames
      cases hnames
  · intro b hb
    obtain ⟨hhandlers, htraits⟩ := h.plain_body b hb
    refine ⟨hcode b hb, ?_, ?_⟩
    · rw [hhandlers]
      exact fits_nil
    · rw [htraits]
      exact listed_nil _

end Method.Built

/-! ### Constants -/

namespace ConstantPool

/-- Every entry of `p` is an entry of `q` in the same place. -/
structure Extends (p q : ConstantPool) : Prop where
  ints : p.ints <+: q.ints
  strings : p.strings <+: q.strings
  multinames : p.multinames <+: q.multinames

/-- Nothing was added but integers, strings and plain names. -/
structure Assembled (p : ConstantPool) : Prop where
  ints : p.ints.head? = some 0
  uints : p.uints = [0]
  doubles : p.doubles = [0]
  strings : p.strings.head? = some ""
  namespaces : p.namespaces = [⟨0, 0⟩]
  namespaceSets : p.namespaceSets = [[]]
  multinames : p.multinames.head? = some (.runtimeQNameLate false)
  plain : ∀ name ∈ p.multinames, name.parameters = []

variable {p q : ConstantPool}

theorem Extends.refl (p : ConstantPool) : Extends p p :=
  ⟨List.prefix_refl _, List.prefix_refl _, List.prefix_refl _⟩

theorem Extends.trans {r : ConstantPool} (h : Extends p q) (h' : Extends q r) : Extends p r :=
  ⟨h.ints.trans h'.ints, h.strings.trans h'.strings, h.multinames.trans h'.multinames⟩

theorem Grows.extends {texts names : Nat} (h : Grows texts names p q) : Extends p q := by
  obtain ⟨strings, multinames, rfl, -⟩ := h
  exact ⟨List.prefix_refl _, List.prefix_append _ _, List.prefix_append _ _⟩

theorem Grows.assembled {texts names : Nat} (h : Grows texts names p q) (hp : p.Assembled) :
    q.Assembled := by
  obtain ⟨strings, multinames, rfl, -, -, hplain⟩ := h
  exact { hp with
    strings := head?_append_of_head? hp.strings strings
    multinames := head?_append_of_head? hp.multinames multinames
    plain := List.forall_mem_append.2 ⟨hp.plain, hplain⟩ }

theorem assembled_empty : Assembled .empty := by
  constructor
  case plain =>
    intro name hname
    rw [List.mem_singleton.1 hname]
    rfl
  all_goals rfl

theorem Assembled.wellFormed (hp : p.Assembled)
    (hints : Fits p.ints) (hstrings : Listed FitsText p.strings) (hnames : Fits p.multinames) :
    p.WellFormed where
  ints := ⟨hp.ints, .of_fits hints⟩
  uints := by rw [hp.uints]; decide
  doubles := by rw [hp.doubles]; decide
  strings := ⟨hp.strings, hstrings⟩
  namespaces := by rw [hp.namespaces]; decide
  namespaceSets := by rw [hp.namespaceSets]; decide
  multinames := by
    refine ⟨hp.multinames, hnames, fun name hname => ?_⟩
    rw [Multiname.WellFormed, hp.plain name hname]
    exact fits_nil

/-- A name that is added has the text it was added for. -/
theorem addQName_names {text : String} {index : UInt32} {constants : ConstantPool}
    (hrun : (addQName text).run p = (index, constants)) (hstrings : Fits constants.strings)
    (hnames : Fits constants.multinames) :
    ∃ name, constants.multinames[index.toNat]? = some (.qname 0 name false) ∧
      constants.strings[name.toNat]? = some text := by
  obtain ⟨name, grown, hstring, hgrows, htext⟩ := run_addString text p
  rw [addQName, run_bind_eq hstring] at hrun
  cases hrun
  refine ⟨name, ?_, htext (fits_of_grown hgrows.extends.strings hstrings)⟩
  have hcount := fits_of_grown (List.prefix_append grown.multinames _) hnames
  have hindex : (UInt32.ofNat grown.multinames.length).toNat = grown.multinames.length :=
    UInt32.toNat_ofNat_of_lt' hcount
  rw [hindex]
  exact List.getElem?_concat_length

theorem Extends.localName? (h : Extends p q) {index : UInt32} {text : String}
    (hp : p.localName? index = some text) : q.localName? index = some text := by
  obtain ⟨entry, hentry, hp⟩ := Option.bind_eq_some_iff.1 hp
  obtain ⟨name, hname, htext⟩ := Option.bind_eq_some_iff.1 hp
  rw [ConstantPool.localName?, getElem?_of_grown h.multinames hentry]
  change (entry.name? >>= fun name => q.strings[name.toNat]?) = _
  rw [hname]
  exact getElem?_of_grown h.strings htext

/-- The multiname has this text, if a file can hold the pool. -/
def HasName (p : ConstantPool) (index : UInt32) (text : String) : Prop :=
  Fits p.strings → Fits p.multinames → p.localName? index = some text

theorem HasName.mono {index : UInt32} {text : String} (h : HasName p index text)
    (hextends : Extends p q) : HasName q index text := by
  intro hstrings hnames
  exact hextends.localName?
    (h (fits_of_grown hextends.strings hstrings) (fits_of_grown hextends.multinames hnames))

theorem hasName_of_addQName {text : String} {index : UInt32}
    (hrun : (addQName text).run p = (index, q)) : HasName q index text := by
  intro hstrings hnames
  obtain ⟨name, hname, htext⟩ := addQName_names hrun hstrings hnames
  rw [localName?, hname]
  exact htext

theorem grows_of_addString {text : String} {index : UInt32}
    (hrun : (addString text).run p = (index, q)) : Grows 1 0 p q := by
  obtain ⟨_, _, hrun', hgrows, -⟩ := run_addString text p
  rw [hrun] at hrun'
  cases hrun'
  exact hgrows

theorem grows_of_addQName {text : String} {index : UInt32}
    (hrun : (addQName text).run p = (index, q)) : Grows 1 1 p q := by
  obtain ⟨_, hrun', hgrows⟩ := run_addQName text p
  rw [hrun] at hrun'
  cases hrun'
  exact hgrows

end ConstantPool

/-! ### Steps -/

/-- A class half with a constructor and with a method for each pair of a name and a method. -/
def Instance.filled (iinit : UInt32) (methods : List (UInt32 × UInt32)) (i : Instance) : Instance :=
  { i with iinit, traits := methods.map fun entry => Trait.ofMethod entry.1 entry.2 }

theorem Instance.wellFormed_filled {name iinit : UInt32} {methods : List (UInt32 × UInt32)}
    (h : Fits methods) : ((Instance.ofName name).filled iinit methods).WellFormed := by
  have hflag : hasFlag 0 Instance.protectedFlag = false := by decide
  refine ⟨hflag.symm, fits_nil, ?_, ?_⟩
  · exact Nat.lt_of_le_of_lt (Nat.le_of_eq (List.length_map _)) h
  · intro t ht
    obtain ⟨entry, -, rfl⟩ := List.mem_map.1 ht
    exact Trait.wellFormed_ofMethod entry.1 entry.2

namespace Program

open ConstantPool (grows_of_addString grows_of_addQName)

/-- Every entry of `p` is an entry of `q` in the same place. -/
structure Extends (p q : Program) : Prop where
  constants : p.constants.Extends q.constants
  methods : p.methods <+: q.methods
  instances : p.instances <+: q.instances
  classes : p.classes <+: q.classes
  scripts : p.scripts <+: q.scripts

/-- The program was put together by steps. -/
structure Assembled (p : Program) : Prop where
  constants : p.constants.Assembled
  methods : ∀ m ∈ p.methods, m.Built
  metadata : p.metadata = []
  instances : ∀ i ∈ p.instances, ∃ name iinit methods,
    i = (Instance.ofName name).filled iinit methods
  classes : ∀ c ∈ p.classes, c.traits = []
  classes_length : p.classes.length = p.instances.length
  scripts : ∀ s ∈ p.scripts, s.traits = []

/-- No table, no text and no code is too long for a file. -/
structure Bounded (p : Program) : Prop where
  ints : Fits p.constants.ints
  strings : Listed FitsText p.constants.strings
  multinames : Fits p.constants.multinames
  methods : Listed (fun m => Fits m.paramTypes ∧ ∀ b ∈ m.body, Fits b.code) p.methods
  instances : Listed (fun i => Fits i.traits) p.instances
  scripts : Fits p.scripts

/-- The index that a step gave leads to what the step added; integers and scripts are just there. -/
def Designates (p : Program) : Step → Option Nat → Prop
  | .string text, some i => p.constants.strings[i]? = some text
  | .qname text, some i => ∃ name, p.constants.multinames[i]? = some (.qname 0 name false) ∧
      p.constants.strings[name.toNat]? = some text
  | .int n, none => n ∈ p.constants.ints
  | .method m, some i => p.methods[i]? = some m
  | .classNamed name iinit cinit methods, some i => p.className? i = some name ∧
      ∃ index, p.classAt i = .ok ((Instance.ofName index).filled iinit methods, ⟨cinit, []⟩)
  | .script init, none => ⟨init, []⟩ ∈ p.scripts
  | _, _ => False

/-- All that a step can do to a program. The name of a class may have been there before. -/
inductive Added (p : Program) : Step → Option Nat → Program → Prop where
  | string {text : String} {index : UInt32} {constants : ConstantPool}
      (hrun : (ConstantPool.addString text).run p.constants = (index, constants)) :
      Added p (.string text) (some index.toNat) { p with constants }
  | qname {text : String} {index : UInt32} {constants : ConstantPool}
      (hrun : (ConstantPool.addQName text).run p.constants = (index, constants)) :
      Added p (.qname text) (some index.toNat) { p with constants }
  | int (n : Int32) : Added p (.int n) none
      { p with constants := { p.constants with ints := p.constants.ints ++ [n] } }
  | method (m : Method) : Added p (.method m) (some (UInt32.ofNat p.methods.length).toNat)
      { p with methods := p.methods ++ [m] }
  | classNamed {name : String} {index : UInt32} {texts names : Nat} {constants : ConstantPool}
      (iinit cinit : UInt32) (methods : List (UInt32 × UInt32))
      (hgrows : ConstantPool.Grows texts names p.constants constants)
      (hname : constants.HasName index name) :
      Added p (.classNamed name iinit cinit methods) (some p.instances.length)
        { p with
          constants
          instances := p.instances ++ [(Instance.ofName index).filled iinit methods]
          classes := p.classes ++ [⟨cinit, []⟩] }
  | script (init : UInt32) : Added p (.script init) none
      { p with scripts := p.scripts ++ [⟨init, []⟩] }

theorem added_run (p : Program) (s : Step) : Added p s (s.run.run p).1 (s.run.run p).2 := by
  cases s with
  | string text => exact .string rfl
  | qname text => exact .qname rfl
  | int n => exact .int n
  | method m => exact .method m
  | classNamed name iinit cinit methods =>
    obtain ⟨constants, hrun, hgrows⟩ := ConstantPool.run_addQName name p.constants
    have hstep : (Step.classNamed name iinit cinit methods).run.run p = _ :=
      run_bind_eq (run_newInstance hrun)
    rw [hstep]
    exact .classNamed iinit cinit methods hgrows (ConstantPool.hasName_of_addQName hrun)
  | script init => exact .script init

variable {p q : Program} {s : Step} {index : Option Nat}

theorem Extends.refl (p : Program) : Extends p p :=
  ⟨.refl _, List.prefix_refl _, List.prefix_refl _, List.prefix_refl _, List.prefix_refl _⟩

/-- Nothing moves. -/
theorem Added.extends (h : Added p s index q) : Extends p q := by
  cases h with
  | string hrun => exact { Extends.refl p with constants := (grows_of_addString hrun).extends }
  | qname hrun => exact { Extends.refl p with constants := (grows_of_addQName hrun).extends }
  | int n =>
    refine { Extends.refl p with constants := ?_ }
    exact { ConstantPool.Extends.refl p.constants with ints := List.prefix_append _ _ }
  | method m => exact { Extends.refl p with methods := List.prefix_append _ _ }
  | classNamed iinit cinit methods hgrows _ =>
    exact { Extends.refl p with
      constants := hgrows.extends
      instances := List.prefix_append _ _
      classes := List.prefix_append _ _ }
  | script init => exact { Extends.refl p with scripts := List.prefix_append _ _ }

theorem Added.assembled (h : Added p s index q) (hp : p.Assembled)
    (hs : ∀ m, s = .method m → m.Built) : q.Assembled := by
  cases h with
  | string hrun => exact { hp with constants := (grows_of_addString hrun).assembled hp.constants }
  | qname hrun => exact { hp with constants := (grows_of_addQName hrun).assembled hp.constants }
  | int n =>
    refine { hp with constants := ?_ }
    exact { hp.constants with ints := head?_append_of_head? hp.constants.ints [n] }
  | method m => exact { hp with
      methods := List.forall_mem_append.2 ⟨hp.methods, List.forall_mem_singleton.2 (hs m rfl)⟩ }
  | classNamed iinit cinit methods hgrows _ =>
    exact { hp with
      constants := hgrows.assembled hp.constants
      instances := List.forall_mem_append.2
        ⟨hp.instances, List.forall_mem_singleton.2 ⟨_, iinit, methods, rfl⟩⟩
      classes := List.forall_mem_append.2 ⟨hp.classes, List.forall_mem_singleton.2 rfl⟩
      classes_length := by rw [List.length_append, List.length_append, hp.classes_length]; rfl }
  | script init => exact { hp with
      scripts := List.forall_mem_append.2 ⟨hp.scripts, List.forall_mem_singleton.2 rfl⟩ }

theorem classAt_eq_ok_iff {i : Nat} {inst : Instance} {static : Class} :
    p.classAt i = .ok (inst, static) ↔
      p.instances[i]? = some inst ∧ p.classes[i]? = some static := by
  unfold classAt
  split
  · rename_i hinst hstatic
    rw [hinst, hstatic]
    simp
  · rename_i hnone
    constructor
    · intro h
      cases h
    · rintro ⟨hinst, hstatic⟩
      exact (hnone inst static hinst hstatic).elim

/-- The index leads to what was just added. -/
theorem Added.designates (h : Added p s index q) (hp : p.Assembled) (hq : q.Bounded) :
    Designates q s index := by
  cases h with
  | @string text index constants hrun =>
    obtain ⟨_, _, hrun', -, htext⟩ := ConstantPool.run_addString text p.constants
    rw [hrun] at hrun'
    cases hrun'
    have hgrows := grows_of_addString hrun
    exact htext (fits_of_grown hgrows.extends.strings hq.strings.fits)
  | qname hrun => exact ConstantPool.addQName_names hrun hq.strings.fits hq.multinames
  | int n => exact List.mem_append_right _ (List.mem_singleton_self n)
  | method m =>
    have hcount := fits_of_grown (List.prefix_append p.methods _) hq.methods.fits
    have hindex : (UInt32.ofNat p.methods.length).toNat = p.methods.length :=
      UInt32.toNat_ofNat_of_lt' hcount
    rw [hindex]
    exact List.getElem?_concat_length
  | @classNamed name index _ _ constants iinit cinit methods _ hname =>
    have hinstance : (p.instances ++ [(Instance.ofName index).filled iinit methods])[
        p.instances.length]? = some ((Instance.ofName index).filled iinit methods) :=
      List.getElem?_concat_length
    have hclass : (p.classes ++ [(⟨cinit, []⟩ : Class)])[p.instances.length]? =
        some ⟨cinit, []⟩ := by
      rw [← hp.classes_length]
      exact List.getElem?_concat_length
    refine ⟨?_, index, classAt_eq_ok_iff.2 ⟨hinstance, hclass⟩⟩
    rw [className?, hinstance]
    exact hname hq.strings.fits hq.multinames
  | script init => exact List.mem_append_right _ (List.mem_singleton_self _)

/-- What an index leads to does not change when the program grows. -/
theorem Designates.mono (h : Designates p s index) (hextends : Extends p q) :
    Designates q s index := by
  unfold Designates at h ⊢
  split at h
  · exact getElem?_of_grown hextends.constants.strings h
  · obtain ⟨name, hname, htext⟩ := h
    exact ⟨name, getElem?_of_grown hextends.constants.multinames hname,
      getElem?_of_grown hextends.constants.strings htext⟩
  · exact hextends.constants.ints.subset h
  · exact getElem?_of_grown hextends.methods h
  · obtain ⟨hname, name, hclass⟩ := h
    obtain ⟨hinst, hstatic⟩ := classAt_eq_ok_iff.1 hclass
    refine ⟨?_, name, classAt_eq_ok_iff.2 ⟨getElem?_of_grown hextends.instances hinst,
      getElem?_of_grown hextends.classes hstatic⟩⟩
    rw [className?, hinst] at hname
    rw [className?, getElem?_of_grown hextends.instances hinst]
    exact hextends.constants.localName? hname
  · exact hextends.scripts.subset h
  · exact h

theorem Bounded.of_extends (hq : q.Bounded) (h : Extends p q) : p.Bounded where
  ints := fits_of_grown h.constants.ints hq.ints
  strings := listed_of_grown h.constants.strings hq.strings
  multinames := fits_of_grown h.constants.multinames hq.multinames
  methods := listed_of_grown h.methods hq.methods
  instances := listed_of_grown h.instances hq.instances
  scripts := fits_of_grown h.scripts hq.scripts

/-! ### The written form -/

theorem assembled_empty : Assembled .empty where
  constants := ConstantPool.assembled_empty
  methods := fun _ hm => absurd hm List.not_mem_nil
  metadata := rfl
  instances := fun _ hi => absurd hi List.not_mem_nil
  classes := fun _ hc => absurd hc List.not_mem_nil
  classes_length := rfl
  scripts := fun _ hs => absurd hs List.not_mem_nil

/-- A file can hold the program. -/
theorem Assembled.wellFormed (hp : p.Assembled) (hbounded : p.Bounded) : p.WellFormed where
  constants := hp.constants.wellFormed hbounded.ints hbounded.strings hbounded.multinames
  methods := ⟨hbounded.methods.fits, fun m hm =>
    (hp.methods m hm).wellFormed (hbounded.methods.each m hm).1 (hbounded.methods.each m hm).2⟩
  metadata := by
    rw [hp.metadata]
    exact listed_nil _
  instances := by
    refine ⟨hbounded.instances.fits, fun i hi => ?_⟩
    obtain ⟨name, iinit, methods, rfl⟩ := hp.instances i hi
    have htraits : Fits (methods.map fun entry => Trait.ofMethod entry.1 entry.2) :=
      hbounded.instances.each _ hi
    apply Instance.wellFormed_filled
    rwa [Fits, List.length_map] at htraits
  classes := by
    intro c hc
    rw [Class.WellFormed, hp.classes c hc]
    exact listed_nil _
  classes_length := hp.classes_length
  scripts := by
    refine ⟨hbounded.scripts, fun s hs => ?_⟩
    rw [Script.WellFormed, hp.scripts s hs]
    exact listed_nil _

/-! ### Any order of steps -/

/-- A caller puts a program together from nothing. `done` are the steps and the index that each
gave, and `held` are the class halves under new names, which the caller fills and adds at any
time. -/
inductive Reached : Program → List (Step × Option Nat) → List (String × Instance) → Prop where
  | empty : Reached .empty [] []
  | step {p : Program} {done : List (Step × Option Nat)} {held : List (String × Instance)}
      (h : Reached p done held) (s : Step) (hs : ∀ m, s = .method m → m.Built) :
      Reached (s.run.run p).2 (done ++ [(s, (s.run.run p).1)]) held
  | named {p : Program} {done : List (Step × Option Nat)} {held : List (String × Instance)}
      (h : Reached p done held) (name : String) :
      Reached ((newInstance name).run p).2 done (held ++ [(name, ((newInstance name).run p).1)])
  | filled {p : Program} {done : List (Step × Option Nat)} {held : List (String × Instance)}
      (h : Reached p done held) {name : String} {inst : Instance} (hinst : (name, inst) ∈ held)
      (iinit cinit : UInt32) (methods : List (UInt32 × UInt32)) :
      Reached ((addClass (inst.filled iinit methods) ⟨cinit, []⟩).run p).2
        (done ++ [(.classNamed name iinit cinit methods,
          some ((addClass (inst.filled iinit methods) ⟨cinit, []⟩).run p).1)]) held

variable {done : List (Step × Option Nat)} {held : List (String × Instance)}

/-- What holds of a program that a caller has reached. -/
structure Kept (p : Program) (done : List (Step × Option Nat)) (held : List (String × Instance)) :
    Prop where
  assembled : p.Assembled
  designates : p.Bounded → ∀ e ∈ done, Designates p e.1 e.2
  named : ∀ e ∈ held, ∃ index, e.2 = Instance.ofName index ∧ p.constants.HasName index e.1

theorem Kept.mono (h : Kept p done held) (hextends : Extends p q) (hq : q.Assembled) :
    Kept q done held where
  assembled := hq
  designates := fun hbounded e he =>
    (h.designates (hbounded.of_extends hextends) e he).mono hextends
  named := by
    intro e he
    obtain ⟨index, hinst, hname⟩ := h.named e he
    exact ⟨index, hinst, hname.mono hextends.constants⟩

theorem Kept.added (h : Kept p done held) (hadded : Added p s index q)
    (hs : ∀ m, s = .method m → m.Built) : Kept q (done ++ [(s, index)]) held := by
  have hmono := h.mono hadded.extends (hadded.assembled h.assembled hs)
  refine { hmono with designates := fun hbounded => ?_ }
  exact List.forall_mem_append.2 ⟨hmono.designates hbounded,
    List.forall_mem_singleton.2 (hadded.designates h.assembled hbounded)⟩

/-- The name of a held half is in the pool, and stays there until the half is added. -/
theorem Kept.newInstance (h : Kept p done held) (name : String) :
    Kept ((newInstance name).run p).2 done (held ++ [(name, ((newInstance name).run p).1)]) := by
  obtain ⟨constants, hrun, hgrows⟩ := ConstantPool.run_addQName name p.constants
  rw [run_newInstance hrun]
  have hmono : Kept { p with constants } done held :=
    h.mono { Extends.refl p with constants := hgrows.extends }
      { h.assembled with constants := hgrows.assembled h.assembled.constants }
  exact { hmono with
    named := List.forall_mem_append.2 ⟨hmono.named,
      List.forall_mem_singleton.2 ⟨_, rfl, ConstantPool.hasName_of_addQName hrun⟩⟩ }

theorem Reached.kept (h : Reached p done held) : Kept p done held := by
  induction h with
  | empty =>
    exact ⟨assembled_empty, fun _ _ he => absurd he List.not_mem_nil,
      fun _ he => absurd he List.not_mem_nil⟩
  | @step p _ _ _ s hs ih => exact ih.added (added_run p s) hs
  | named _ name ih => exact ih.newInstance name
  | filled _ hinst iinit cinit methods ih =>
    obtain ⟨index, rfl, hname⟩ := ih.named _ hinst
    exact ih.added (.classNamed iinit cinit methods (.refl _) hname) fun m hm => by cases hm

/-- However the steps are ordered, each index still leads to what its step added, both halves of
each class are there, and the written form is read as the program again. -/
theorem reached_keeps (h : Reached p done held) (hbounded : p.Bounded) :
    (∀ e ∈ done, Designates p e.1 e.2) ∧ p.instances.length = p.classes.length ∧
      parse p.write = .ok p := by
  have hkept := h.kept
  refine ⟨hkept.designates hbounded, hkept.assembled.classes_length.symm, ?_⟩
  have hread := (reads (hkept.assembled.wellFormed hbounded)).runOn []
  rwa [List.append_nil] at hread

/-- Steps one after another. -/
theorem Reached.steps {steps : List Step} (h : Reached p done held)
    (hsteps : ∀ m, .method m ∈ steps → m.Built) {indices : List (Option Nat)}
    (hrun : (steps.mapM Step.run).run p = (indices, q)) :
    Reached q (done ++ steps.zip indices) held := by
  induction steps generalizing p done indices with
  | nil =>
    cases hrun
    rwa [List.zip_nil_left, List.append_nil]
  | cons s steps ih =>
    rw [run_mapM_cons] at hrun
    cases hrun
    have hs : ∀ m, s = .method m → m.Built := fun m hm => hsteps m (hm ▸ List.mem_cons_self)
    have hrest := ih (h.step s hs) (fun m hm => hsteps m (List.mem_cons_of_mem s hm)) rfl
    rwa [List.append_assoc] at hrest

/-- A method that takes one parameter and the rest of the arguments, and returns the first. -/
def firstParam : Method := ((Method.empty.withRest true).addParam.withBody 1 [0xD1, 0x48])

/-- One of the texts is a name already, and another becomes one. -/
def mixedSteps : List Step :=
  [.string "x", .method firstParam, .string "A", .qname "x", .int (-1), .script 0]

/-- A class half, then the steps, and then the class. -/
def begun : Instance × Program := (newInstance "A").run .empty

def mixed : List (Option Nat) × Program := (mixedSteps.mapM Step.run).run begun.2

def interleaved : Nat × Program := (addClass (begun.1.filled 0 [(2, 0)]) ⟨0, []⟩).run mixed.2

theorem reached_keeps_interleaved :
    Reached interleaved.2 (mixedSteps.zip mixed.1 ++
        [(.classNamed "A" 0 0 [(2, 0)], some interleaved.1)]) [("A", begun.1)] ∧
      interleaved.2.Bounded ∧ mixed.1 = [some 2, some 0, some 1, some 2, none, none] ∧
      interleaved.2.className? interleaved.1 = some "A" ∧
      Designates interleaved.2 (.qname "x") (some 2) ∧
      parse interleaved.2.write = .ok interleaved.2 := by
  have hsteps : ∀ m, .method m ∈ mixedSteps → m.Built := by
    intro m hm
    have hm : m = firstParam := by simpa [mixedSteps] using hm
    exact hm ▸ .body 1 _ (.param (.rest true .empty))
  have hmixed := (Reached.empty.named "A").steps hsteps rfl
  have hreached := hmixed.filled List.mem_cons_self 0 0 [(2, 0)]
  have hbounded : interleaved.2.Bounded := by constructor <;> decide +kernel
  have hindices : mixed.1 = [some 2, some 0, some 1, some 2, none, none] := by decide +kernel
  obtain ⟨hdone, -, hread⟩ := reached_keeps hreached hbounded
  have hclass := hdone _ (List.mem_append_right _ List.mem_cons_self)
  have hqname : Designates interleaved.2 (.qname "x") (some 2) := by
    refine hdone (.qname "x", some 2) (List.mem_append_left _ ?_)
    change _ ∈ mixedSteps.zip mixed.1
    rw [hindices]
    decide
  exact ⟨hreached, hbounded, hindices, hclass.1, hqname, hread⟩

end Program

end PackedMovie.Abc
