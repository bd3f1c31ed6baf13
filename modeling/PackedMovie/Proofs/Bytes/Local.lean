import PackedMovie.Proofs.Bytes.Exact

/-!
# Local readers

A local reader has no other sources than the bytes that it takes. Where it gives a value it would
give the same value for these bytes anywhere, whatever stands behind them, and its outcome is the
same wherever its input begins.

Main statements: `Local.bind`, `Local.append`.
-/
namespace PackedMovie.Reader

variable {ε α β : Type}

/-- What a step gives and the bytes that it leaves, but not where it stands. -/
def outcome : EStateM.Result ε Cursor α → Except ε (α × Bytes)
  | .ok a c => .ok (a, c.rest)
  | .error e _ => .error e

structure Local (r : Reader ε α) : Prop where
  placeless : ∀ offset offset' rest, outcome (r ⟨offset, rest⟩) = outcome (r ⟨offset', rest⟩)
  reads : ∀ {c d a}, r c = .ok a d → ∃ used, c.rest = used ++ d.rest ∧ Reads r used a

theorem Local.pure (a : α) : Local (Pure.pure a : Reader ε α) where
  placeless _ _ _ := rfl
  reads h := by
    cases h
    exact ⟨[], rfl, Reads.pure a⟩

theorem Local.throw (e : ε) : Local (MonadExcept.throw e : Reader ε α) where
  placeless _ _ _ := rfl
  reads h := by cases h

theorem Local.bind {r : Reader ε α} {f : α → Reader ε β} (hr : Local r) (hf : ∀ a, Local (f a)) :
    Local (r >>= f) where
  placeless offset offset' rest := by
    have hsame := hr.placeless offset offset' rest
    simp only [Bind.bind, EStateM.bind]
    cases h : r ⟨offset, rest⟩ <;> cases h' : r ⟨offset', rest⟩ <;>
      simp only [h, h', outcome, reduceCtorEq, Except.ok.injEq, Except.error.injEq,
        Prod.mk.injEq] at hsame ⊢
    · obtain ⟨rfl, hrest⟩ := hsame
      rename_i a d d'
      obtain ⟨place, left⟩ := d
      cases hrest
      exact (hf a).placeless place d'.offset d'.rest
    · exact hsame
  reads h := by
    obtain ⟨a, d, hr', hf'⟩ := bind_eq_ok_iff.1 h
    obtain ⟨front, hfront, hreads⟩ := hr.reads hr'
    obtain ⟨back, hback, hreads'⟩ := (hf a).reads hf'
    refine ⟨front ++ back, ?_, hreads.bind hreads'⟩
    rw [hfront, hback, List.append_assoc]

theorem Local.map {r : Reader ε α} (f : α → β) (hr : Local r) : Local (f <$> r) := by
  rw [map_eq_pure_bind]
  exact hr.bind fun a => Local.pure (f a)

section

variable [EndOfBytes ε]

theorem Local.bytes (count : Nat) : Local (Reader.bytes count : Reader ε Bytes) where
  placeless offset offset' rest := by
    simp only [Reader.bytes, Cursor.take?]
    by_cases h : (rest.take count).length = count
    · rw [if_pos h, if_pos h]
      rfl
    · rw [if_neg h, if_neg h]
      rfl
  reads h := by
    obtain ⟨rfl, hrest, -⟩ := bytes_eq_ok_iff.1 h
    exact ⟨_, hrest, Reads.bytes _⟩

theorem Local.word (width : Nat) : Local (Reader.word width : Reader ε Nat) :=
  (Local.bytes width).map _

theorem Local.u8 : Local (Reader.u8 : Reader ε UInt8) := (Local.word 1).map _

theorem Local.u16 : Local (Reader.u16 : Reader ε UInt16) := (Local.word 2).map _

theorem Local.u32 : Local (Reader.u32 : Reader ε UInt32) := (Local.word 4).map _

end

section

variable {r : Reader ε α} (hr : Local r) {c d : Cursor}
include hr

theorem Local.ok_elsewhere {a : α} (h : r c = .ok a d) (offset : Nat) :
    ∃ offset', r ⟨offset, c.rest⟩ = .ok a ⟨offset', d.rest⟩ := by
  obtain ⟨used, hused, hreads⟩ := hr.reads h
  rw [hused]
  exact ⟨_, hreads offset d.rest⟩

theorem Local.error_elsewhere {e : ε} (h : r c = .error e d) (offset : Nat) :
    ∃ d', r ⟨offset, c.rest⟩ = .error e d' := by
  have hsame := hr.placeless c.offset offset c.rest
  rw [h] at hsame
  cases h' : r ⟨offset, c.rest⟩ with
  | ok a d' =>
    rw [h'] at hsame
    cases hsame
  | error e' d' =>
    rw [h'] at hsame
    cases hsame
    exact ⟨d', rfl⟩

/-- A value is the same, and the same bytes are left, where the input goes on. -/
theorem Local.append {a : α} (h : r c = .ok a d) (more : Bytes) :
    r ⟨c.offset, c.rest ++ more⟩ = .ok a ⟨d.offset, d.rest ++ more⟩ := by
  obtain ⟨offset, rest⟩ := c
  obtain ⟨offset', left⟩ := d
  obtain ⟨used, rfl, hreads⟩ := hr.reads h
  have hplace := h.symm.trans (hreads offset left)
  cases hplace
  rw [List.append_assoc]
  exact hreads offset (left ++ more)

end

end PackedMovie.Reader
