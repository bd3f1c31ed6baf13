import PackedMovie.Abc.Assembly
import PackedMovie.Proofs.Abc.WellFormed

/-!
# Growing programs

What a program gains when something is added to it: an index that names the addition, and nothing
that was there moves. The written form of a program holds every text and every method body of it, so
a bound on the one bounds the others.

Main statements: `ConstantPool.run_addString`, `run_addQNames`, `length_string_le`,
`length_code_le`.
-/
namespace PackedMovie.Abc

theorem run_bind_eq {σ α β : Type} {step : StateM σ α} {next : α → StateM σ β} {s t : σ} {a : α}
    (h : step.run s = (a, t)) : (step >>= next).run s = (next a).run t := by
  rw [StateT.run_bind, h]
  rfl

theorem run_mapM_cons {σ α β : Type} (step : α → StateM σ β) (a : α) (as : List α) (s : σ) :
    ((a :: as).mapM step).run s =
      (((step a).run s).1 :: ((as.mapM step).run ((step a).run s).2).1,
        ((as.mapM step).run ((step a).run s).2).2) := by
  rw [List.mapM_cons]
  rfl

theorem run_mapM_append {σ α β : Type} (step : α → StateM σ β) (front back : List α) (s : σ) :
    ((front ++ back).mapM step).run s =
      (((front.mapM step).run s).1 ++ ((back.mapM step).run ((front.mapM step).run s).2).1,
        ((back.mapM step).run ((front.mapM step).run s).2).2) := by
  rw [List.mapM_append]
  rfl

theorem length_run_mapM {σ α β : Type} (step : α → StateM σ β) (as : List α) (s : σ) :
    ((as.mapM step).run s).1.length = as.length := by
  induction as generalizing s with
  | nil => rfl
  | cons a as ih => rw [run_mapM_cons, List.length_cons, List.length_cons, ih]

namespace ConstantPool

/-- `q` is `p` with at most `texts` more strings and `names` more names, all behind those of `p`. -/
def Grows (texts names : Nat) (p q : ConstantPool) : Prop :=
  ∃ strings multinames,
    q = { p with strings := p.strings ++ strings, multinames := p.multinames ++ multinames } ∧
    strings.length ≤ texts ∧ multinames.length = names ∧ ∀ name ∈ multinames, name.parameters = []

theorem Grows.refl (p : ConstantPool) : Grows 0 0 p p :=
  ⟨[], [], by simp, Nat.le_refl 0, rfl, by simp⟩

theorem Grows.mono {texts texts' names : Nat} {p q : ConstantPool} (h : Grows texts names p q)
    (hle : texts ≤ texts') : Grows texts' names p q := by
  obtain ⟨strings, multinames, hq, hstrings, hrest⟩ := h
  exact ⟨strings, multinames, hq, Nat.le_trans hstrings hle, hrest⟩

theorem grows_append_string (text : String) (p : ConstantPool) :
    Grows 1 0 p { p with strings := p.strings ++ [text] } :=
  ⟨[text], [], by simp, Nat.le_refl 1, rfl, by simp⟩

theorem Grows.trans {texts texts' names names' : Nat} {p q r : ConstantPool}
    (h : Grows texts names p q) (h' : Grows texts' names' q r) :
    Grows (texts + texts') (names + names') p r := by
  obtain ⟨strings, multinames, rfl, hstrings, hnames, hplain⟩ := h
  obtain ⟨strings', multinames', rfl, hstrings', hnames', hplain'⟩ := h'
  refine ⟨strings ++ strings', multinames ++ multinames', ?_, ?_, ?_, ?_⟩
  · simp only [List.append_assoc]
  · rw [List.length_append]
    omega
  · rw [List.length_append, hnames, hnames']
  · intro name hname
    rcases List.mem_append.1 hname with hname | hname
    · exact hplain name hname
    · exact hplain' name hname

theorem Grows.string {texts names : Nat} {p q : ConstantPool} (h : Grows texts names p q)
    {i : Nat} {text : String} (hi : p.strings[i]? = some text) : q.strings[i]? = some text := by
  obtain ⟨strings, multinames, rfl, -⟩ := h
  exact List.getElem?_append_left (List.getElem?_eq_some_iff.1 hi).1 ▸ hi

theorem Grows.length_multinames {texts names : Nat} {p q : ConstantPool}
    (h : Grows texts names p q) :
    q.multinames.length = p.multinames.length + names := by
  obtain ⟨strings, multinames, rfl, _, hnames, _⟩ := h
  rw [List.length_append, hnames]

theorem Grows.length_strings_le {texts names : Nat} {p q : ConstantPool}
    (h : Grows texts names p q) :
    q.strings.length ≤ p.strings.length + texts := by
  obtain ⟨strings, multinames, rfl, hstrings, _⟩ := h
  rw [List.length_append]
  omega

/-- Added to the empty pool, any texts that a file can hold make a pool that it can hold. -/
theorem Grows.wellFormed {texts names : Nat} {p : ConstantPool} (h : Grows texts names .empty p)
    (htexts : 1 + texts < UInt32.size) (hnames : 1 + names < UInt32.size)
    (hfits : ∀ text ∈ p.strings.drop 1, FitsText text) : p.WellFormed := by
  have hstrings := h.length_strings_le
  have hmultinames := h.length_multinames
  obtain ⟨strings, multinames, rfl, _, _, hplain⟩ := h
  have hone {α : Type} {P : α → Prop} {implicit : α} (hp : P implicit) :
      Table implicit P [implicit] :=
    ⟨rfl, by change 1 < UInt32.size; decide, fun a ha => List.mem_singleton.1 ha ▸ hp⟩
  constructor
  · exact hone True.intro
  · exact hone True.intro
  · exact hone True.intro
  · refine ⟨rfl, Nat.lt_of_le_of_lt hstrings htexts, ?_⟩
    intro text htext
    rcases List.mem_cons.1 htext with rfl | htext
    · exact fits_nil
    · exact hfits text htext
  · exact hone True.intro
  · exact hone fits_nil
  · refine ⟨rfl, Nat.lt_of_le_of_lt (Nat.le_of_eq hmultinames) hnames, ?_⟩
    intro name hname
    rcases List.mem_cons.1 hname with rfl | hname
    · exact fits_nil
    · change Fits name.parameters
      rw [hplain name hname]
      exact fits_nil

/-! ### Strings and names -/

/-- The index of a string leads to the string, whether it was there before or not. -/
theorem run_addString (text : String) (p : ConstantPool) :
    ∃ index constants, (addString text).run p = (index, constants) ∧ Grows 1 0 p constants ∧
      (Fits p.strings → constants.strings[index.toNat]? = some text) := by
  simp only [addString, StateT.run]
  split
  · rename_i position hposition
    obtain ⟨hlt, htext, _⟩ := List.idxOf?_eq_some_iff.1 hposition
    have hold : p.strings[position + 1]? = some text := by
      rw [Nat.add_comm, ← List.getElem?_drop]
      exact List.getElem?_eq_some_iff.2 ⟨hlt, htext⟩
    refine ⟨_, p, rfl, ?_, ?_⟩
    · exact (Grows.refl p).mono (Nat.zero_le 1)
    · intro hfits
      have hsize : p.strings.length < UInt32.size := hfits
      have hlength : position < p.strings.length - 1 := by rwa [List.length_drop] at hlt
      have hindex : (UInt32.ofNat (position + 1)).toNat = position + 1 :=
        UInt32.toNat_ofNat_of_lt' (by omega)
      rw [hindex, hold]
  · refine ⟨_, _, rfl, ?_, ?_⟩
    · exact grows_append_string text p
    · intro hfits
      have hindex : (UInt32.ofNat p.strings.length).toNat = p.strings.length :=
        UInt32.toNat_ofNat_of_lt' hfits
      rw [hindex, List.getElem?_concat_length]

theorem run_addQName (text : String) (p : ConstantPool) :
    ∃ constants, (addQName text).run p = (UInt32.ofNat p.multinames.length, constants) ∧
      Grows 1 1 p constants := by
  obtain ⟨index, constants, hrun, ⟨strings, multinames, rfl, hstrings, hnames, _⟩, _⟩ :=
    run_addString text p
  have hnil : multinames = [] := List.length_eq_zero_iff.1 hnames
  refine ⟨_, ?_, strings, [.qname 0 index false], rfl, hstrings, rfl, ?_⟩
  · rw [addQName, run_bind_eq hrun, hnil, List.append_nil]
    rfl
  · intro name hname
    rw [List.mem_singleton.1 hname]
    rfl

end ConstantPool

namespace Program

/-! ### Several additions -/

theorem run_onConstants {α : Type} {step : StateM ConstantPool α} {p : Program} {a : α}
    {constants : ConstantPool} (h : step.run p.constants = (a, constants)) :
    (onConstants step).run p = (a, { p with constants }) := by
  simp only [onConstants, StateT.run] at h ⊢
  rw [h]

theorem run_addMethod (m : Method) (p : Program) :
    (addMethod m).run p =
      (UInt32.ofNat p.methods.length, { p with methods := p.methods ++ [m] }) := rfl

theorem run_newInstance {name : String} {p : Program} {index : UInt32} {constants : ConstantPool}
    (h : (ConstantPool.addQName name).run p.constants = (index, constants)) :
    (newInstance name).run p = (Instance.ofName index, { p with constants }) := by
  rw [newInstance, StateT.run_map, run_onConstants h]
  rfl

/-- The indices of entries that are added one after another. -/
def indices (start count : Nat) : List UInt32 := (List.range' start count).map UInt32.ofNat

theorem indices_succ (start count : Nat) :
    indices start (count + 1) = UInt32.ofNat start :: indices (start + 1) count := by
  rw [indices, List.range'_succ, List.map_cons, indices]

theorem length_indices (start count : Nat) : (indices start count).length = count := by
  rw [indices, List.length_map, List.length_range']

theorem run_addQNames (names : List String) (p : Program) :
    ∃ constants, ConstantPool.Grows names.length names.length p.constants constants ∧
      (names.mapM fun name => onConstants (ConstantPool.addQName name)).run p =
        (indices p.constants.multinames.length names.length, { p with constants }) := by
  induction names generalizing p with
  | nil => exact ⟨p.constants, ConstantPool.Grows.refl _, rfl⟩
  | cons name names ih =>
    obtain ⟨constants, hrun, hgrows⟩ := ConstantPool.run_addQName name p.constants
    obtain ⟨more, hmore, hrest⟩ := ih { p with constants }
    refine ⟨more, ?_, ?_⟩
    · have hall := hgrows.trans hmore
      rwa [Nat.add_comm 1] at hall
    · rw [run_mapM_cons, run_onConstants hrun, hrest, List.length_cons, indices_succ,
        hgrows.length_multinames]

theorem run_addMethods (methods : List Method) (p : Program) :
    (methods.mapM addMethod).run p =
      (indices p.methods.length methods.length, { p with methods := p.methods ++ methods }) := by
  induction methods generalizing p with
  | nil =>
    rw [List.append_nil]
    rfl
  | cons m methods ih =>
    rw [run_mapM_cons, run_addMethod, ih, List.length_cons, indices_succ, List.length_append,
      List.length_singleton, List.append_assoc, List.singleton_append]

/-! ### Sizes -/

theorem length_le_of_mem_flatMap {α β : Type} {f : α → List β} {a : α} {as : List α} (h : a ∈ as) :
    (f a).length ≤ (as.flatMap f).length := by
  rw [List.flatMap_def]
  exact (List.sublist_flatten_of_mem (List.mem_map_of_mem h)).length_le

theorem length_string_le {p : Program} {text : String} (h : text ∈ p.constants.strings.drop 1) :
    (Utf8.encode text).length ≤ p.write.length := by
  have hstring : (Utf8.encode text).length ≤ (Write.string text).length := by
    rw [Write.string, List.length_append]
    omega
  have htable := length_le_of_mem_flatMap (f := Write.string) h
  have hpool : ((p.constants.strings.drop 1).flatMap Write.string).length ≤
      p.constants.write.length := by
    simp only [ConstantPool.write, writeTable, List.length_append]
    omega
  have hprogram : p.constants.write.length ≤ p.write.length := by
    simp only [write, List.length_append]
    omega
  omega

theorem exists_mem_bodies {m : Method} {body : Body} (hbody : m.body = some body) (start : Nat)
    {methods : List Method} (hm : m ∈ methods) : ∃ index, (index, body) ∈ bodies start methods := by
  induction methods generalizing start with
  | nil => exact absurd hm List.not_mem_nil
  | cons other methods ih =>
    rcases List.mem_cons.1 hm with rfl | hm
    · rw [bodies, hbody]
      exact ⟨_, List.mem_cons_self⟩
    · obtain ⟨index, hindex⟩ := ih (start + 1) hm
      rw [bodies]
      split
      · exact ⟨index, List.mem_cons_of_mem _ hindex⟩
      · exact ⟨index, hindex⟩

theorem length_code_le {p : Program} {m : Method} {body : Body} (hm : m ∈ p.methods)
    (hbody : m.body = some body) : body.code.length ≤ p.write.length := by
  obtain ⟨index, hrecord⟩ := exists_mem_bodies hbody 0 hm
  have hcode : body.code.length ≤ (body.write index).length := by
    simp only [Body.write, List.length_append]
    omega
  have hbodies := length_le_of_mem_flatMap (f := fun record => Body.write record.1 record.2) hrecord
  have hprogram : ((bodies 0 p.methods).flatMap fun record => Body.write record.1 record.2).length ≤
      p.write.length := by
    simp only [write, Write.counted, List.length_append]
    omega
  simp only at hbodies
  omega

end Program

/-! ### Members -/

theorem Method.wellFormed_withBody {m : Method} (hm : m.WellFormedSignature) (stack : UInt32)
    {code : Bytes} (hcode : Fits code) : (m.withBody stack code).WellFormed := by
  constructor
  · exact hm.of_body _
  · intro body hbody
    cases hbody
    exact ⟨hcode, fits_nil, listed_nil _⟩

theorem Trait.wellFormed_ofMethod (name method : UInt32) : (ofMethod name method).WellFormed := by
  constructor
  · exact UInt8.zero_le
  · intro value hvalue
    cases hvalue
  · exact fits_nil
  · intro _
    rfl

theorem listed_ofMethod {names methods : List UInt32} (hfits : Fits names) :
    Listed Trait.WellFormed (List.zipWith Trait.ofMethod names methods) := by
  constructor
  · have hlength : names.length < UInt32.size := hfits
    unfold Fits
    rw [List.length_zipWith]
    omega
  · intro t ht
    rw [← List.map_uncurry_zip_eq_zipWith] at ht
    obtain ⟨entry, _, rfl⟩ := List.mem_map.1 ht
    exact Trait.wellFormed_ofMethod entry.1 entry.2

end PackedMovie.Abc
