import Mathlib.Data.List.Dedup
import PackedMovie.Dictionary
import PackedMovie.Proofs.History

/-!
# Dictionaries from lists

What a dictionary made from a list of pairs gives back, and that the entries of a dictionary make
the dictionary again.

Main statements: `get?_insertAll`, `get?_insertAll_of_mem`, `ofList_entries`.
-/
namespace PackedMovie.Dictionary

variable {κ ν : Type} [Ord κ] [Std.TransOrd κ] [Std.LawfulEqOrd κ]

theorem insertAll_cons (p : κ × ν) (pairs : List (κ × ν)) (d : Dictionary κ ν) :
    d.insertAll (p :: pairs) = (d.insert p.1 p.2).insertAll pairs := rfl

section Look

variable [DecidableEq κ]

/-- The last value given to a key counts. -/
theorem get?_insertAll (k : κ) (pairs : List (κ × ν)) (d : Dictionary κ ν) :
    (d.insertAll pairs).get? k =
      (pairs.reverse.findSome? fun p => if k = p.1 then some p.2 else none).or (d.get? k) := by
  refine History.foldl_latest (f := fun d : Dictionary κ ν => d.get? k) (fun d p => ?_) d pairs
  rw [get?_insert]
  split <;> rfl

theorem get?_ofList (k : κ) (pairs : List (κ × ν)) :
    (ofList pairs).get? k = pairs.reverse.findSome? fun p => if k = p.1 then some p.2 else none := by
  rw [ofList, get?_insertAll, get?_empty, Option.or_none]

/-- Of the pairs with a key the last one counts. -/
theorem get?_ofList_eq_some_iff {k : κ} {v : ν} {pairs : List (κ × ν)} :
    (ofList pairs).get? k = some v ↔
      ∃ before after, pairs = before ++ (k, v) :: after ∧ ∀ p ∈ after, p.1 ≠ k := by
  rw [get?_ofList, History.findSome?_reverse_eq_some_iff]
  constructor
  · rintro ⟨before, ⟨key, value⟩, after, hpairs, hpair, hafter⟩
    simp only [Option.ite_none_right_eq_some, Option.some.injEq] at hpair
    obtain ⟨rfl, rfl⟩ := hpair
    refine ⟨before, after, hpairs, fun p hmem => ?_⟩
    have hnone := hafter p hmem
    rintro rfl
    simp at hnone
  · rintro ⟨before, after, hpairs, hafter⟩
    refine ⟨before, (k, v), after, hpairs, by simp, fun p hmem => ?_⟩
    rw [if_neg (Ne.symm (hafter p hmem))]

theorem get?_ofList_append (k : κ) (front back : List (κ × ν)) :
    (ofList (front ++ back)).get? k = ((ofList back).get? k).or ((ofList front).get? k) := by
  rw [get?_ofList, get?_ofList, get?_ofList, List.reverse_append, List.findSome?_append]

theorem get?_insertAll_of_not_mem {k : κ} {pairs : List (κ × ν)} (h : k ∉ pairs.map Prod.fst)
    (d : Dictionary κ ν) : (d.insertAll pairs).get? k = d.get? k := by
  induction pairs generalizing d with
  | nil => rfl
  | cons p pairs ih =>
    rw [List.map_cons, List.mem_cons, not_or] at h
    rw [insertAll_cons, ih h.2, get?_insert, if_neg h.1]

/-- A key that is given one value only has it. -/
theorem get?_insertAll_of_mem {k : κ} {v : ν} {pairs : List (κ × ν)}
    (hkeys : (pairs.map Prod.fst).Nodup) (h : (k, v) ∈ pairs) (d : Dictionary κ ν) :
    (d.insertAll pairs).get? k = some v := by
  induction pairs generalizing d with
  | nil => exact absurd h List.not_mem_nil
  | cons p pairs ih =>
    rw [List.map_cons, List.nodup_cons] at hkeys
    rw [insertAll_cons]
    rcases List.mem_cons.1 h with rfl | h
    · rw [get?_insertAll_of_not_mem hkeys.1, get?_insert, if_pos rfl]
    · exact ih hkeys.2 h _

end Look

/-! ### Entries -/

omit [Std.LawfulEqOrd κ] in
theorem nodup_keys (d : Dictionary κ ν) : (d.entries.map Prod.fst).Nodup := by
  rw [List.Nodup, List.pairwise_map]
  refine d.ascending.imp fun {a b} hlt heq => ?_
  have hself : compare b.1 b.1 = .eq := Std.ReflCmp.compare_self
  rw [heq, hself] at hlt
  cases hlt

theorem mem_entries_insertAll {e : κ × ν} {pairs : List (κ × ν)} {d : Dictionary κ ν}
    (h : e ∈ (d.insertAll pairs).entries) : e ∈ pairs ∨ e ∈ d.entries := by
  induction pairs generalizing d with
  | nil => exact .inr h
  | cons p pairs ih =>
    rcases ih h with h | h
    · exact .inl (List.mem_cons_of_mem p h)
    · rcases mem_place h with h | h
      · exact .inl (h ▸ List.mem_cons_self)
      · exact .inr h

omit [Std.TransOrd κ] [Std.LawfulEqOrd κ] in
theorem length_place_le (key : κ) (value : ν) (entries : List (κ × ν)) :
    (place key value entries).length ≤ entries.length + 1 := by
  induction entries with
  | nil => exact Nat.le_refl 1
  | cons e rest ih =>
    unfold place
    split
    · exact Nat.le_refl _
    · exact Nat.le_succ _
    · exact Nat.succ_le_succ ih

theorem size_insertAll_le (pairs : List (κ × ν)) (d : Dictionary κ ν) :
    (d.insertAll pairs).size ≤ d.size + pairs.length := by
  induction pairs generalizing d with
  | nil => exact Nat.le_refl _
  | cons p pairs ih =>
    have hplace : (d.insert p.1 p.2).size ≤ d.size + 1 := length_place_le p.1 p.2 d.entries
    have hrest := ih (d.insert p.1 p.2)
    rw [insertAll_cons, List.length_cons]
    omega

omit [Std.TransOrd κ] in
theorem isSome_lookup_iff {k : κ} {entries : List (κ × ν)} :
    (lookup k entries).isSome ↔ k ∈ entries.map Prod.fst := by
  induction entries with
  | nil => simp [lookup]
  | cons e rest ih =>
    simp only [lookup, List.map_cons, List.mem_cons, ← ih, Std.LawfulEqCmp.compare_eq_iff_eq]
    by_cases hkey : k = e.1 <;> simp [hkey]

/-- A dictionary that was made from a list has as many entries as the list has different keys. -/
theorem size_ofList [DecidableEq κ] (pairs : List (κ × ν)) :
    (ofList pairs).size = (pairs.map Prod.fst).dedup.length := by
  have hkeys : ∀ k, k ∈ (ofList pairs).entries.map Prod.fst ↔ k ∈ (pairs.map Prod.fst).dedup := by
    intro k
    have hget : (lookup k (ofList pairs).entries).isSome = _ :=
      congrArg Option.isSome (get?_ofList k pairs)
    rw [← isSome_lookup_iff, hget, List.mem_dedup, List.findSome?_isSome_iff, List.mem_map]
    constructor
    · rintro ⟨p, hp, hsome⟩
      by_cases hkey : k = p.1
      · exact ⟨p, List.mem_reverse.1 hp, hkey.symm⟩
      · simp [hkey] at hsome
    · rintro ⟨p, hp, rfl⟩
      exact ⟨p, List.mem_reverse.2 hp, by simp⟩
  have hperm := (List.perm_ext_iff_of_nodup (nodup_keys _) (List.nodup_dedup _)).2 hkeys
  rw [← hperm.length_eq, List.length_map]
  rfl

omit [Std.TransOrd κ] [Std.LawfulEqOrd κ] in
theorem place_ne_nil (key : κ) (value : ν) (entries : List (κ × ν)) :
    place key value entries ≠ [] := by
  cases entries with
  | nil => simp [place]
  | cons e rest =>
    unfold place
    split <;> simp

theorem isEmpty_insert (key : κ) (value : ν) (d : Dictionary κ ν) :
    (d.insert key value).isEmpty = false := by
  simp [isEmpty, insert, place_ne_nil]

omit [Std.LawfulEqOrd κ] in
/-- An entry with the greatest key goes to the end. -/
theorem place_last {key : κ} {entries : List (κ × ν)} (value : ν)
    (h : ∀ e ∈ entries, compare e.1 key = .lt) :
    place key value entries = entries ++ [(key, value)] := by
  induction entries with
  | nil => rfl
  | cons e rest ih =>
    have hgt : compare key e.1 = .gt := Std.OrientedCmp.gt_of_lt (h e List.mem_cons_self)
    rw [place, hgt, List.cons_append]
    simp only
    rw [ih fun f hf => h f (List.mem_cons_of_mem e hf)]

theorem entries_insertAll {pairs : List (κ × ν)} {d : Dictionary κ ν}
    (h : (d.entries ++ pairs).Pairwise fun a b => compare a.1 b.1 = .lt) :
    (d.insertAll pairs).entries = d.entries ++ pairs := by
  induction pairs generalizing d with
  | nil => exact (List.append_nil _).symm
  | cons p pairs ih =>
    have hlast : ∀ e ∈ d.entries, compare e.1 p.1 = .lt := by
      intro e he
      exact (List.pairwise_append.1 h).2.2 e he p List.mem_cons_self
    have hinsert : (d.insert p.1 p.2).entries = d.entries ++ [p] := place_last p.2 hlast
    rw [insertAll_cons, ih, hinsert, List.append_assoc, List.singleton_append]
    rwa [hinsert, List.append_assoc, List.singleton_append]

theorem ofList_entries (d : Dictionary κ ν) : ofList d.entries = d := by
  have h : (ofList d.entries).entries = d.entries := entries_insertAll d.ascending
  obtain ⟨entries, hentries⟩ := d
  unfold ofList at h ⊢
  generalize insertAll entries empty = other at h ⊢
  obtain ⟨others, hothers⟩ := other
  cases h
  rfl

end PackedMovie.Dictionary
