import Mathlib.Data.List.Induction

/-!
# Histories

What is left of a sequence of steps. A part of the state that each step sets or keeps has the value
that was set last. Whether a step sets it may depend on the steps before it.

Main statements: `foldl_latest`, `findSome?_reverse_eq_some_iff`, `foldl_last_or_initial`.
-/
namespace PackedMovie.History

section Latest

variable {σ α β : Type} {run : σ → α → σ}

/-- The last step that sets a part of the state decides it. -/
theorem foldl_latest {f : σ → Option β} {g : α → Option β}
    (h : ∀ s a, f (run s a) = (g a).or (f s)) (s : σ) (steps : List α) :
    f (steps.foldl run s) = (steps.reverse.findSome? g).or (f s) := by
  induction steps generalizing s with
  | nil => rfl
  | cons a steps ih =>
    rw [List.foldl_cons, ih, h, List.reverse_cons, List.findSome?_append]
    simp [Option.or_assoc]

/-- The same of a part that always has a value. -/
theorem foldl_latest_getD {f : σ → β} {g : α → Option β}
    (h : ∀ s a, f (run s a) = (g a).getD (f s)) (s : σ) (steps : List α) :
    f (steps.foldl run s) = (steps.reverse.findSome? g).getD (f s) := by
  have hsome : ∀ s a, some (f (run s a)) = (g a).or (some (f s)) := by
    intro s a
    rw [h]
    cases g a <;> rfl
  have hlatest := foldl_latest (f := fun s => some (f s)) hsome s steps
  cases hset : steps.reverse.findSome? g with
  | none =>
    rw [hset] at hlatest
    exact Option.some.inj hlatest
  | some b =>
    rw [hset] at hlatest
    exact Option.some.inj hlatest

theorem foldl_kept {f : σ → β} (h : ∀ s a, f (run s a) = f s) (s : σ) (steps : List α) :
    f (steps.foldl run s) = f s := by
  induction steps generalizing s with
  | nil => rfl
  | cons a steps ih => rw [List.foldl_cons, ih, h]

/-- What was set last was set by some step, and by none behind it. -/
theorem findSome?_reverse_eq_some_iff {g : α → Option β} {steps : List α} {b : β} :
    steps.reverse.findSome? g = some b ↔
      ∃ before a after, steps = before ++ a :: after ∧ g a = some b ∧ ∀ a' ∈ after, g a' = none := by
  rw [List.findSome?_eq_some_iff]
  constructor
  · rintro ⟨after, a, before, hsteps, ha, hafter⟩
    refine ⟨before.reverse, a, after.reverse, ?_, ha, ?_⟩
    · rw [← List.reverse_inj, hsteps]
      simp
    · intro a' ha'
      exact hafter a' (List.mem_reverse.1 ha')
  · rintro ⟨before, a, after, rfl, ha, hafter⟩
    refine ⟨after.reverse, a, before.reverse, by simp, ha, ?_⟩
    intro a' ha'
    exact hafter a' (List.mem_reverse.1 ha')

end Latest

/-! ### Steps that depend on what came before -/

/-- Some step of the history was taken after steps such that `P` holds of them and of it. -/
def Happened {α : Type} (P : List α → α → Prop) (steps : List α) : Prop :=
  ∃ before a after, steps = before ++ a :: after ∧ P before a

/-- The last time that some `P` held of a step was with the value `b`. -/
def LastHappened {α β : Type} (P : List α → α → β → Prop) (steps : List α) (b : β) : Prop :=
  ∃ before a after, steps = before ++ a :: after ∧ P before a b ∧
    ¬ Happened (fun more a' => ∃ b', P (before ++ a :: more) a' b') after

section

variable {α β : Type}

theorem not_happened_nil (P : List α → α → Prop) : ¬ Happened P [] := by
  rintro ⟨before, a, after, h, -⟩
  simp at h

theorem happened_concat {P : List α → α → Prop} {steps : List α} {a : α} :
    Happened P (steps ++ [a]) ↔ Happened P steps ∨ P steps a := by
  constructor
  · rintro ⟨before, a', after, h, hP⟩
    rcases List.eq_nil_or_concat after with rfl | ⟨rest, last, rfl⟩
    · obtain ⟨rfl, hlast⟩ := List.append_inj' h rfl
      cases hlast
      exact .inr hP
    · have hsplit : steps ++ [a] = (before ++ a' :: rest) ++ [last] := by
        rw [h, List.concat_eq_append, List.append_assoc, List.cons_append]
      obtain ⟨rfl, -⟩ := List.append_inj' hsplit rfl
      exact .inl ⟨before, a', rest, rfl, hP⟩
  · rintro (⟨before, a', after, rfl, hP⟩ | hP)
    · exact ⟨before, a', after ++ [a], by simp, hP⟩
    · exact ⟨steps, a, [], rfl, hP⟩

theorem lastHappened_concat {P : List α → α → β → Prop} {steps : List α} {a : α} {b : β}
    (h : P steps a b) : LastHappened P (steps ++ [a]) b :=
  ⟨steps, a, [], rfl, h, not_happened_nil _⟩

theorem LastHappened.concat {P : List α → α → β → Prop} {steps : List α} {a : α} {b : β}
    (h : LastHappened P steps b) (ha : ¬ ∃ b', P steps a b') :
    LastHappened P (steps ++ [a]) b := by
  obtain ⟨before, a', after, rfl, hP, hnone⟩ := h
  refine ⟨before, a', after ++ [a], by simp, hP, ?_⟩
  rw [happened_concat]
  rintro (hafter | hlast)
  · exact hnone hafter
  · exact ha hlast

/-- A part of the state that a step either sets or keeps, and keeps only where there is nothing that
it could be set to, has the value that was set last, or the initial one if it never was set. -/
theorem foldl_last_or_initial {σ : Type} {run : σ → α → σ} {f : σ → β}
    {P : List α → α → β → Prop} {s : σ}
    (h : ∀ before a, P before a (f (run (before.foldl run s) a)) ∨
      (¬ ∃ b, P before a b) ∧ f (run (before.foldl run s) a) = f (before.foldl run s))
    (steps : List α) :
    (f (steps.foldl run s) = f s ∧ ¬ Happened (fun before a => ∃ b, P before a b) steps) ∨
      LastHappened P steps (f (steps.foldl run s)) := by
  induction steps using List.reverseRecOn with
  | nil => exact .inl ⟨rfl, not_happened_nil _⟩
  | append_singleton steps a ih =>
    rw [List.foldl_append, List.foldl_cons, List.foldl_nil]
    rcases h steps a with hset | ⟨hnone, hkeep⟩
    · exact .inr (lastHappened_concat hset)
    · rw [hkeep]
      rcases ih with ⟨hinitial, hnever⟩ | hlast
      · refine .inl ⟨hinitial, ?_⟩
        rw [happened_concat]
        rintro (hearlier | hnow)
        · exact hnever hearlier
        · exact hnone hnow
      · exact .inr (hlast.concat hnone)

end

end PackedMovie.History
