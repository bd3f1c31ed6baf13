/-!
# Dictionaries

A finite map, kept as the list of its entries in ascending order of their keys. Each key has at most one
entry, so two dictionaries are equal exactly when they have the same entries.

Main statement: `get?_insert`, by which the last value given to a key counts.
-/
namespace PackedMovie

structure Dictionary (κ ν : Type) [Ord κ] where
  entries : List (κ × ν)
  ascending : entries.Pairwise fun a b => compare a.1 b.1 = .lt
  deriving DecidableEq

namespace Dictionary

variable {κ ν : Type} [Ord κ]

/-- Puts an entry in its place, instead of the one that has its key. -/
def place (key : κ) (value : ν) : List (κ × ν) → List (κ × ν)
  | [] => [(key, value)]
  | e :: rest =>
    match compare key e.1 with
    | .lt => (key, value) :: e :: rest
    | .eq => (key, value) :: rest
    | .gt => e :: place key value rest

def lookup (key : κ) : List (κ × ν) → Option ν
  | [] => none
  | e :: rest => if compare key e.1 = .eq then some e.2 else lookup key rest

theorem mem_place {key : κ} {value : ν} {e : κ × ν} : ∀ {entries : List (κ × ν)},
    e ∈ place key value entries → e = (key, value) ∨ e ∈ entries
  | [], h => by simpa [place] using h
  | f :: rest, h => by
    unfold place at h
    split at h
    · simpa using h
    · rcases List.mem_cons.1 h with h | h
      · exact .inl h
      · exact .inr (List.mem_cons_of_mem f h)
    · rcases List.mem_cons.1 h with h | h
      · exact .inr (h ▸ List.mem_cons_self)
      · exact (mem_place h).imp_right (List.mem_cons_of_mem f)

theorem ascending_place [Std.TransOrd κ] [Std.LawfulEqOrd κ] (key : κ) (value : ν) :
    ∀ {entries : List (κ × ν)}, entries.Pairwise (fun a b => compare a.1 b.1 = .lt) →
      (place key value entries).Pairwise fun a b => compare a.1 b.1 = .lt
  | [], _ => by simp [place]
  | f :: rest, h => by
    obtain ⟨hf, hrest⟩ := List.pairwise_cons.1 h
    unfold place
    split
    · rename_i hlt
      refine List.pairwise_cons.2 ⟨fun e he => ?_, h⟩
      rcases List.mem_cons.1 he with rfl | he
      · exact hlt
      · exact Std.TransCmp.lt_trans hlt (hf e he)
    · rename_i heq
      have hkey : key = f.1 := Std.LawfulEqCmp.eq_of_compare heq
      exact List.pairwise_cons.2 ⟨fun e he => hkey ▸ hf e he, hrest⟩
    · rename_i hgt
      refine List.pairwise_cons.2 ⟨fun e he => ?_, ascending_place key value hrest⟩
      rcases mem_place he with rfl | he
      · exact Std.OrientedCmp.lt_of_gt hgt
      · exact hf e he

def empty : Dictionary κ ν := ⟨[], .nil⟩

def get? (d : Dictionary κ ν) (key : κ) : Option ν := lookup key d.entries

def size (d : Dictionary κ ν) : Nat := d.entries.length

def isEmpty (d : Dictionary κ ν) : Bool := d.entries.isEmpty

@[simp] theorem get?_empty (k : κ) : (empty : Dictionary κ ν).get? k = none := rfl

section Lawful

variable [Std.TransOrd κ] [Std.LawfulEqOrd κ]

def insert (key : κ) (value : ν) (d : Dictionary κ ν) : Dictionary κ ν :=
  ⟨place key value d.entries, ascending_place key value d.ascending⟩

/-- All pairs of a list, the later ones over the earlier ones. -/
def insertAll (pairs : List (κ × ν)) (d : Dictionary κ ν) : Dictionary κ ν :=
  pairs.foldl (fun d p => d.insert p.1 p.2) d

def ofList (pairs : List (κ × ν)) : Dictionary κ ν := empty.insertAll pairs

omit [Std.TransOrd κ] in
theorem lookup_place [DecidableEq κ] (key k : κ) (value : ν) : ∀ entries : List (κ × ν),
    lookup k (place key value entries) = if k = key then some value else lookup k entries
  | [] => by simp [place, lookup, Std.LawfulEqCmp.compare_eq_iff_eq]
  | f :: rest => by
    unfold place
    split
    · simp [lookup, Std.LawfulEqCmp.compare_eq_iff_eq]
    · rename_i heq
      have hkey : key = f.1 := Std.LawfulEqCmp.eq_of_compare heq
      by_cases h : k = key <;> simp [lookup, Std.LawfulEqCmp.compare_eq_iff_eq, h, ← hkey]
    · rename_i hgt
      have hne : key ≠ f.1 := by
        rintro rfl
        simp [Std.ReflCmp.compare_self] at hgt
      by_cases hk : k = f.1
      · simp [lookup, hk, Ne.symm hne]
      · simp [lookup, Std.LawfulEqCmp.compare_eq_iff_eq, hk, lookup_place key k value rest]

theorem get?_insert [DecidableEq κ] (key k : κ) (value : ν) (d : Dictionary κ ν) :
    (d.insert key value).get? k = if k = key then some value else d.get? k :=
  lookup_place key k value d.entries

end Lawful
end Dictionary
end PackedMovie
