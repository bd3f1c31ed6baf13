import Mathlib.Data.List.Nodup
import PackedMovie.Proofs.Abc.Additions

/-!
# Strings that are stored once

Strings and names are added to a new pool in any order. Each string has one index, which is never that
of the implicit entry, and leads to the string from then on. A name always has an index of its own, but
it has the string in common with all that were added for the same text.

Main statement: `assemble_interns`.
-/
namespace PackedMovie.Abc.ConstantPool

/-- What can be added to a pool that gives an index. -/
inductive Addition where
  | string (text : String)
  | qname (text : String)
  deriving DecidableEq, Repr

def Addition.run : Addition → StateM ConstantPool UInt32
  | .string text => addString text
  | .qname text => addQName text

/-- The index that each addition to a new pool gave, and the pool after all of them. -/
def assemble (additions : List Addition) : List UInt32 × ConstantPool :=
  (additions.mapM Addition.run).run .empty

/-! ### Pools that share strings -/

/-- The implicit entries are there, and no other string is there twice. -/
structure Interned (p : ConstantPool) : Prop where
  strings_pos : 0 < p.strings.length
  multinames_pos : 0 < p.multinames.length
  nodup : (p.strings.drop 1).Nodup

/-- The index leads to the string, and not to the implicit one. -/
structure Locates (p : ConstantPool) (index : UInt32) (text : String) : Prop where
  ne_zero : index ≠ 0
  getElem? : p.strings[index.toNat]? = some text

theorem interned_empty : Interned .empty := ⟨Nat.one_pos, Nat.one_pos, List.nodup_nil⟩

variable {p q : ConstantPool} {text other : String} {index : UInt32}

theorem locates_ofNat {place : Nat} (hpos : 0 < place) (hlt : place < UInt32.size)
    (h : p.strings[place]? = some text) : p.Locates (UInt32.ofNat place) text := by
  have hindex : (UInt32.ofNat place).toNat = place := UInt32.toNat_ofNat_of_lt' hlt
  refine ⟨?_, by rw [hindex, h]⟩
  intro hzero
  rw [hzero] at hindex
  exact absurd hindex (Nat.ne_of_lt hpos)

theorem Locates.mono (h : p.Locates index text) (hextends : p.Extends q) :
    q.Locates index text := ⟨h.ne_zero, getElem?_of_grown hextends.strings h.getElem?⟩

theorem Locates.string_eq (h : p.Locates index text) : p.string index = .ok text := by
  rw [string, h.getElem?]

theorem Locates.localName?_eq {name : UInt32} (h : p.Locates name text)
    (hentry : p.multinames[index.toNat]? = some (.qname 0 name false)) :
    p.localName? index = some text := by
  rw [localName?, hentry]
  exact h.getElem?

theorem Locates.exists_place (h : p.Locates index text) :
    ∃ place, index.toNat = place + 1 ∧ (p.strings.drop 1)[place]? = some text := by
  have hne : index.toNat ≠ 0 := fun hzero => h.ne_zero (UInt32.toNat_inj.1 hzero)
  obtain ⟨place, hplace⟩ := Nat.exists_eq_add_one_of_ne_zero hne
  refine ⟨place, hplace, ?_⟩
  rw [List.getElem?_drop, Nat.add_comm, ← hplace, h.getElem?]

/-- Behind the implicit entry, a place and a string determine each other. -/
theorem Locates.eq_iff (hp : p.Interned) {index' : UInt32} (h : p.Locates index text)
    (h' : p.Locates index' other) : index = index' ↔ text = other := by
  constructor
  · rintro rfl
    exact Option.some.inj (h.getElem?.symm.trans h'.getElem?)
  · rintro rfl
    obtain ⟨place, hplace, htext⟩ := h.exists_place
    obtain ⟨place', hplace', htext'⟩ := h'.exists_place
    have hbound := (List.getElem?_eq_some_iff.1 htext).1
    have hsame : place = place' :=
      (List.getElem?_inj hbound hp.nodup).1 (htext.trans htext'.symm)
    rw [← UInt32.toNat_inj, hplace, hplace', hsame]

/-! ### One addition -/

theorem addString_cases (h : (addString text).run p = (index, q)) :
    (∃ place, (p.strings.drop 1)[place]? = some text ∧ index = UInt32.ofNat (place + 1) ∧ q = p) ∨
      text ∉ p.strings.drop 1 ∧ index = UInt32.ofNat p.strings.length ∧
        q = { p with strings := p.strings ++ [text] } := by
  simp only [addString, StateT.run] at h
  split at h <;> cases h
  · rename_i place hplace
    obtain ⟨hlt, htext, -⟩ := List.idxOf?_eq_some_iff.1 hplace
    exact .inl ⟨place, List.getElem?_eq_some_iff.2 ⟨hlt, htext⟩, rfl, rfl⟩
  · rename_i hnone
    exact .inr ⟨List.idxOf?_eq_none_iff.1 hnone, rfl, rfl⟩

theorem addQName_cases (h : (addQName text).run p = (index, q)) :
    ∃ name r, (addString text).run p = (name, r) ∧ index = UInt32.ofNat p.multinames.length ∧
      q = { r with multinames := p.multinames ++ [.qname 0 name false] } := by
  obtain ⟨name, r, hstring, ⟨strings, multinames, rfl, -, hnone, -⟩, -⟩ := run_addString text p
  obtain rfl := List.length_eq_zero_iff.1 hnone
  rw [addQName, run_bind_eq hstring] at h
  rw [List.append_nil] at hstring h
  cases h
  exact ⟨name, _, hstring, rfl, rfl⟩

theorem Interned.run_addString (hp : p.Interned) (hrun : (addString text).run p = (index, q))
    (hfits : Fits q.strings) : q.Interned ∧ q.Locates index text := by
  have hpos := hp.strings_pos
  unfold Fits at hfits
  rcases addString_cases hrun with ⟨place, htext, rfl, rfl⟩ | ⟨hnew, rfl, rfl⟩
  · have hbound := (List.getElem?_eq_some_iff.1 htext).1
    rw [List.length_drop] at hbound
    rw [List.getElem?_drop, Nat.add_comm] at htext
    -- The place was counted behind the implicit entry.
    exact ⟨hp, locates_ofNat (Nat.succ_pos place) (by omega) htext⟩
  · simp only [List.length_append, List.length_singleton] at hfits
    refine ⟨⟨?_, hp.multinames_pos, ?_⟩, ?_⟩
    · simp only [List.length_append, List.length_singleton]
      omega
    · simp only [List.drop_append_of_le_length hpos]
      rw [← List.concat_eq_append]
      exact hp.nodup.concat hnew
    · exact locates_ofNat hpos (by omega) List.getElem?_concat_length

/-- What an index leads to after the addition that gave it. A name is behind all that were there. -/
def Addition.Gave (before : ConstantPool) (index : UInt32) (p : ConstantPool) : Addition → Prop
  | .string text => p.Locates index text
  | .qname text => index.toNat = before.multinames.length ∧
    ∃ name, p.Locates name text ∧ p.multinames[index.toNat]? = some (.qname 0 name false)

variable {a : Addition} {additions : List Addition}

theorem extends_run (a : Addition) (p : ConstantPool) : p.Extends (a.run.run p).2 := by
  cases a with
  | string text => exact (grows_of_addString rfl).extends
  | qname text => exact (grows_of_addQName rfl).extends

theorem Interned.run (hp : p.Interned) (hrun : a.run.run p = (index, q)) (hstrings : Fits q.strings)
    (hnames : Fits q.multinames) : q.Interned ∧ a.Gave p index q := by
  cases a with
  | string text => exact hp.run_addString hrun hstrings
  | qname text =>
    obtain ⟨name, r, hstring, rfl, rfl⟩ := addQName_cases hrun
    obtain ⟨hr, hname⟩ := hp.run_addString hstring hstrings
    have hcount : p.multinames.length < UInt32.size :=
      fits_of_grown (List.prefix_append p.multinames _) hnames
    have hindex : (UInt32.ofNat p.multinames.length).toNat = p.multinames.length :=
      UInt32.toNat_ofNat_of_lt' hcount
    refine ⟨⟨hr.strings_pos, ?_, hr.nodup⟩, hindex, name, ⟨hname.ne_zero, hname.getElem?⟩, ?_⟩
    · simp
    · rw [hindex]
      exact List.getElem?_concat_length

theorem Addition.Gave.mono (h : a.Gave p index q) {r : ConstantPool} (hextends : q.Extends r) :
    a.Gave p index r := by
  cases a with
  | string text => exact Locates.mono h hextends
  | qname text =>
    obtain ⟨hindex, name, hname, hentry⟩ := h
    exact ⟨hindex, name, hname.mono hextends, getElem?_of_grown hextends.multinames hentry⟩

theorem Addition.Gave.ne_zero (hp : p.Interned) (h : a.Gave p index q) : index ≠ 0 := by
  cases a with
  | string text => exact Locates.ne_zero h
  | qname text =>
    rintro rfl
    exact absurd h.1 (Nat.ne_of_lt hp.multinames_pos)

/-! ### All additions -/

/-- The pool after the first additions. -/
def poolAfter (additions : List Addition) (count : Nat) : ConstantPool :=
  (assemble (additions.take count)).2

theorem length_assemble (additions : List Addition) :
    (assemble additions).1.length = additions.length := length_run_mapM _ _ _

theorem extends_run_all (additions : List Addition) (p : ConstantPool) :
    p.Extends ((additions.mapM Addition.run).run p).2 := by
  induction additions generalizing p with
  | nil => exact Extends.refl p
  | cons a additions ih =>
    rw [run_mapM_cons]
    exact (extends_run a p).trans (ih _)

theorem Interned.run_all (hp : p.Interned) {additions : List Addition}
    (hstrings : Fits ((additions.mapM Addition.run).run p).2.strings)
    (hnames : Fits ((additions.mapM Addition.run).run p).2.multinames) :
    ((additions.mapM Addition.run).run p).2.Interned := by
  induction additions generalizing p with
  | nil => exact hp
  | cons a additions ih =>
    rw [run_mapM_cons] at hstrings hnames ⊢
    have hrest := extends_run_all additions (a.run.run p).2
    obtain ⟨hq, -⟩ := hp.run rfl (fits_of_grown hrest.strings hstrings)
      (fits_of_grown hrest.multinames hnames)
    exact ih hq hstrings hnames

section

variable {i : Nat} (h : additions[i]? = some a)
include h

theorem getElem?_assemble :
    (assemble additions).1[i]? = some (a.run.run (poolAfter additions i)).1 := by
  obtain ⟨hlt, rfl⟩ := List.getElem?_eq_some_iff.1 h
  have hsplit : additions = additions.take i ++ additions[i] :: additions.drop (i + 1) := by
    rw [List.getElem_cons_drop, List.take_append_drop]
  have hlength : (assemble (additions.take i)).1.length = i := by
    rw [length_assemble]
    exact List.length_take_of_le (Nat.le_of_lt hlt)
  conv_lhs => rw [hsplit, assemble, run_mapM_append, run_mapM_cons, ← assemble]
  rw [List.getElem?_append_right (Nat.le_of_eq hlength), hlength, Nat.sub_self]
  rfl

theorem poolAfter_succ : poolAfter additions (i + 1) = (a.run.run (poolAfter additions i)).2 := by
  rw [poolAfter, List.take_add_one, h, Option.toList_some, assemble, run_mapM_append,
    run_mapM_cons]
  rfl

end

theorem extends_append (front back : List Addition) :
    (assemble front).2.Extends (assemble (front ++ back)).2 := by
  rw [assemble, assemble, run_mapM_append]
  exact extends_run_all back _

theorem extends_poolAfter (additions : List Addition) {m n : Nat} (h : m ≤ n) :
    (poolAfter additions m).Extends (poolAfter additions n) := by
  have hextends := extends_append (additions.take m) ((additions.take n).drop m)
  rwa [← Nat.min_eq_left h, ← List.take_take, Nat.min_eq_left h, List.take_append_drop,
    List.take_take, Nat.min_eq_left h] at hextends

theorem extends_assemble (additions : List Addition) (n : Nat) :
    (poolAfter additions n).Extends (assemble additions).2 := by
  have hextends := extends_append (additions.take n) (additions.drop n)
  rwa [List.take_append_drop] at hextends

section

variable (hstrings : Fits (assemble additions).2.strings)
  (hnames : Fits (assemble additions).2.multinames)
include hstrings hnames

theorem interned_poolAfter (n : Nat) : (poolAfter additions n).Interned := by
  have hgrown := extends_assemble additions n
  exact interned_empty.run_all (fits_of_grown hgrown.strings hstrings)
    (fits_of_grown hgrown.multinames hnames)

/-- From the addition on, its index leads to what was added. -/
theorem exists_gave {i : Nat} (h : additions[i]? = some a) :
    ∃ index, (assemble additions).1[i]? = some index ∧
      ∀ n, i < n → a.Gave (poolAfter additions i) index (poolAfter additions n) := by
  have hnext := poolAfter_succ h
  have hgrown := extends_assemble additions (i + 1)
  obtain ⟨-, hgave⟩ := (interned_poolAfter hstrings hnames i).run (a := a)
    (q := poolAfter additions (i + 1)) (Prod.ext rfl hnext.symm)
    (fits_of_grown hgrown.strings hstrings) (fits_of_grown hgrown.multinames hnames)
  exact ⟨_, getElem?_assemble h, fun n hn => hgave.mono (extends_poolAfter additions hn)⟩

theorem zero_notMem_indices : 0 ∉ (assemble additions).1 := by
  intro hzero
  obtain ⟨i, hi⟩ := List.mem_iff_getElem?.1 hzero
  have hlt : i < additions.length := by
    rw [← length_assemble]
    exact (List.getElem?_eq_some_iff.1 hi).1
  obtain ⟨index, hindex, hgave⟩ := exists_gave hstrings hnames (List.getElem?_eq_getElem hlt)
  rw [hi] at hindex
  cases hindex
  exact (hgave _ (Nat.lt_succ_self i)).ne_zero (interned_poolAfter hstrings hnames i) rfl

/-- A string's index is any that leads to it in the end. -/
theorem string_index_eq_iff {i : Nat} {s t : String} (hs : additions[i]? = some (.string s))
    {index : UInt32} (ht : (poolAfter additions additions.length).Locates index t) :
    (assemble additions).1[i]? = some index ↔ s = t := by
  obtain ⟨first, hfirst, hgave⟩ := exists_gave hstrings hnames hs
  have hfinal := hgave additions.length (List.getElem?_eq_some_iff.1 hs).1
  rw [hfirst, Option.some_inj]
  exact Locates.eq_iff (interned_poolAfter hstrings hnames additions.length) hfinal ht

/-- A later name stands behind an earlier one. -/
theorem name_index_ne {i j : Nat} (hlt : i < j) {s t : String}
    (hs : additions[i]? = some (.qname s)) (ht : additions[j]? = some (.qname t)) :
    (assemble additions).1[i]? ≠ (assemble additions).1[j]? := by
  obtain ⟨first, hfirst, hgave⟩ := exists_gave hstrings hnames hs
  obtain ⟨second, hsecond, hgave'⟩ := exists_gave hstrings hnames ht
  obtain ⟨-, _, -, hentry⟩ := hgave j hlt
  -- The earlier entry is in the table already when the later one is put at its end.
  have hbefore := (List.getElem?_eq_some_iff.1 hentry).1
  have hbehind := (hgave' (j + 1) (Nat.lt_succ_self j)).1
  rw [hfirst, hsecond]
  rintro hsame
  cases hsame
  exact absurd hbehind (Nat.ne_of_lt hbefore)

theorem name_index_inj {i j : Nat} {s t : String} (hs : additions[i]? = some (.qname s))
    (ht : additions[j]? = some (.qname t))
    (h : (assemble additions).1[i]? = (assemble additions).1[j]?) : i = j := by
  rcases Nat.lt_trichotomy i j with hlt | heq | hgt
  · exact absurd h (name_index_ne hstrings hnames hlt hs ht)
  · exact heq
  · exact absurd h.symm (name_index_ne hstrings hnames hgt ht hs)

end

/-- The strings behind the implicit entry are never there twice, and no index is that of an implicit
entry. Two strings that are added, wherever, have the same index just if they are equal, and it leads
to the string in every pool from then on. A name always has an index of its own, which was beyond the
table before, and its text is the string that it was added for; it has this text by the index that the
string has, too. -/
theorem assemble_interns {additions : List Addition}
    (hstrings : Fits (assemble additions).2.strings)
    (hnames : Fits (assemble additions).2.multinames) :
    let indices := (assemble additions).1
    indices.length = additions.length ∧ 0 ∉ indices ∧
      (∀ n, ((poolAfter additions n).strings.drop 1).Nodup) ∧
      (∀ (i j : Nat) (s t : String), additions[i]? = some (.string s) →
        additions[j]? = some (.string t) → (indices[i]? = indices[j]? ↔ s = t)) ∧
      (∀ (i : Nat) (s : String), additions[i]? = some (.string s) →
        ∃ index, indices[i]? = some index ∧
          ∀ n, i < n → (poolAfter additions n).string index = .ok s) ∧
      ∀ (i : Nat) (s : String), additions[i]? = some (.qname s) →
        ∃ index name, indices[i]? = some index ∧ name ≠ 0 ∧
          (poolAfter additions i).multinames[index.toNat]? = none ∧
          (∀ (j : Nat) (t : String), additions[j]? = some (.qname t) → indices[j]? = some index →
            j = i) ∧
          (∀ n, i < n → (poolAfter additions n).multiname index = .ok (.qname 0 name false) ∧
            (poolAfter additions n).localName? index = some s) ∧
          ∀ (j : Nat) (t : String), additions[j]? = some (.string t) →
            (indices[j]? = some name ↔ t = s) := by
  refine ⟨length_assemble additions, zero_notMem_indices hstrings hnames,
    fun n => (interned_poolAfter hstrings hnames n).nodup, ?_, ?_, ?_⟩
  · intro i j s t hs ht
    obtain ⟨index, hindex, hgave⟩ := exists_gave hstrings hnames ht
    have hfinal := hgave additions.length (List.getElem?_eq_some_iff.1 ht).1
    rw [hindex]
    exact string_index_eq_iff hstrings hnames hs hfinal
  · intro i s hs
    obtain ⟨index, hindex, hgave⟩ := exists_gave hstrings hnames hs
    exact ⟨index, hindex, fun n hn => (hgave n hn).string_eq⟩
  · intro i s hs
    obtain ⟨index, hindex, hgave⟩ := exists_gave hstrings hnames hs
    obtain ⟨hplace, name, hname, hentry⟩ := hgave (i + 1) (Nat.lt_succ_self i)
    have hlater (n : Nat) (hn : i < n) : (poolAfter additions n).Locates name s ∧
        (poolAfter additions n).multinames[index.toNat]? = some (.qname 0 name false) :=
      have hgrown := extends_poolAfter additions hn
      ⟨hname.mono hgrown, getElem?_of_grown hgrown.multinames hentry⟩
    refine ⟨index, name, hindex, hname.ne_zero, ?_, ?_, ?_, ?_⟩
    · exact List.getElem?_eq_none (Nat.le_of_eq hplace.symm)
    · intro j t ht hsame
      exact name_index_inj hstrings hnames ht hs (hsame.trans hindex.symm)
    · intro n hn
      obtain ⟨htext, hstored⟩ := hlater n hn
      exact ⟨by rw [multiname, hstored], htext.localName?_eq hstored⟩
    · intro j t ht
      have hfinal := (hlater additions.length (List.getElem?_eq_some_iff.1 hs).1).1
      exact string_index_eq_iff hstrings hnames ht hfinal

/-- Names and strings of the same texts, the empty one among them, in turn. -/
def alternating : List Addition := [.qname "a", .string "", .string "a", .qname "a", .string ""]

-- The string of the first name is the one that is asked for later, the implicit one never is.
example : (assemble alternating).1 = [1, 2, 1, 2, 2] := by decide +kernel

theorem assemble_interns_alternating :
    Fits (assemble alternating).2.strings ∧ Fits (assemble alternating).2.multinames ∧
      0 ∉ (assemble alternating).1 ∧
      (assemble alternating).1[1]? = (assemble alternating).1[4]? ∧
      (assemble alternating).1[1]? ≠ (assemble alternating).1[2]? ∧
      ∃ index, (assemble alternating).1[3]? = some index ∧
        (poolAfter alternating 3).multinames[index.toNat]? = none ∧
        (poolAfter alternating 5).localName? index = some "a" := by
  have hstrings : Fits (assemble alternating).2.strings := by decide +kernel
  have hnames : Fits (assemble alternating).2.multinames := by decide +kernel
  obtain ⟨-, hzero, -, hsame, -, hname⟩ := assemble_interns hstrings hnames
  refine ⟨hstrings, hnames, hzero, (hsame 1 4 "" "" rfl rfl).2 rfl, ?_, ?_⟩
  · intro heq
    exact absurd ((hsame 1 2 "" "a" rfl rfl).1 heq) (by decide)
  · obtain ⟨index, _, hindex, -, hfresh, -, hlater, -⟩ := hname 3 "a" rfl
    exact ⟨index, hindex, hfresh, (hlater 5 (by decide)).2⟩

end PackedMovie.Abc.ConstantPool
