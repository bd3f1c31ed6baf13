import PackedMovie.Proofs.Bytes.Exact

/-!
# Stable readers

A stable reader looks at nothing but the bytes it takes. On any input it either runs out of bytes, or
comes to a value or to a fault of the bytes it has seen, and then bytes behind the input change
nothing. If such a reader reads a written form, it runs out of bytes on every part of the form that
is cut short.

Main statements: `Stable.runOn_append`, `Reads.runsOut`.
-/
namespace PackedMovie

/-- The same place in an input that goes on. -/
def Cursor.extend (more : Bytes) (c : Cursor) : Cursor := ⟨c.offset, c.rest ++ more⟩

namespace Reader

variable {ε α β : Type}

/-- The same outcome on an input that goes on. -/
def extend (more : Bytes) : EStateM.Result ε Cursor α → EStateM.Result ε Cursor α
  | .ok a c => .ok a (c.extend more)
  | .error e c => .error e (c.extend more)

/-- The outcome is the same whatever follows, and an error is one of the `faults`. -/
structure Settled (faults : ε → Prop) (r : Reader ε α) (c : Cursor) : Prop where
  extend : ∀ more, r (c.extend more) = extend more (r c)
  faults : ∀ e d, r c = .error e d → faults e

theorem Settled.pure (faults : ε → Prop) (a : α) (c : Cursor) :
    Settled faults (Pure.pure a : Reader ε α) c := ⟨fun _ => rfl, fun _ _ h => by cases h⟩

section Stable

variable [EndOfBytes ε] {faults : ε → Prop}

def RunsOut (r : Reader ε α) (c : Cursor) : Prop := ∃ d, r c = .error EndOfBytes.unexpectedEnd d

/-- What the bytes do not settle is for want of bytes. -/
def Stable (faults : ε → Prop) (r : Reader ε α) : Prop := ∀ c, RunsOut r c ∨ Settled faults r c

theorem Stable.pure (a : α) : Stable faults (Pure.pure a : Reader ε α) :=
  fun c => .inr (Settled.pure faults a c)

theorem Stable.throw {e : ε} (h : faults e) :
    Stable faults (MonadExcept.throw e : Reader ε α) := by
  refine fun c => .inr ⟨fun _ => rfl, fun e' d h' => ?_⟩
  cases h'
  exact h

theorem Stable.bind {r : Reader ε α} {f : α → Reader ε β} (hr : Stable faults r)
    (hf : ∀ a, Stable faults (f a)) : Stable faults (r >>= f) := by
  intro c
  rcases hr c with ⟨d, hd⟩ | hsettled
  · exact .inl ⟨d, by simp only [Bind.bind, EStateM.bind, hd]⟩
  · have hextend := hsettled.extend
    cases hc : r c with
    | ok a d =>
      simp only [hc, extend] at hextend
      have hbind : (r >>= f) c = f a d := by simp only [Bind.bind, EStateM.bind, hc]
      rcases hf a d with ⟨d', hd'⟩ | hrest
      · exact .inl ⟨d', hbind.trans hd'⟩
      · refine .inr ⟨fun more => ?_, fun e d' h => hrest.faults e d' (hbind ▸ h)⟩
        rw [hbind, ← hrest.extend more]
        simp only [Bind.bind, EStateM.bind, hextend]
    | error e d =>
      simp only [hc, extend] at hextend
      refine .inr ⟨fun more => ?_, fun e' d' h => ?_⟩
      · simp only [Bind.bind, EStateM.bind, hextend, hc, extend]
      · simp only [Bind.bind, EStateM.bind, hc, EStateM.Result.error.injEq] at h
        exact h.1 ▸ hsettled.faults e d hc

theorem Stable.map {r : Reader ε α} (f : α → β) (hr : Stable faults r) :
    Stable faults (f <$> r) := by
  rw [map_eq_pure_bind]
  exact hr.bind fun a => Stable.pure (f a)

/-- Where a step stands does not depend on what is still to come. -/
theorem Stable.get_bind {f : Nat → Reader ε α} (hf : ∀ offset, Stable faults (f offset)) :
    Stable faults (MonadState.get >>= fun c => f c.offset) := by
  intro c
  rcases hf c.offset c with hout | hsettled
  · exact .inl hout
  · exact .inr ⟨hsettled.extend, hsettled.faults⟩

theorem Stable.bytes (count : Nat) : Stable faults (Reader.bytes count : Reader ε Bytes) := by
  intro c
  by_cases hcount : c.rest.length < count
  · exact .inl ⟨c, bytes_short hcount⟩
  · have hle : count ≤ c.rest.length := Nat.not_lt.1 hcount
    have hread := bytes_of_le (ε := ε) hle
    refine .inr ⟨fun more => ?_, fun e d h => ?_⟩
    · have hmore : count ≤ (c.extend more).rest.length := by
        rw [Cursor.extend, List.length_append]
        omega
      rw [hread, bytes_of_le hmore]
      simp only [Cursor.extend, extend, List.take_append_of_le_length hle,
        List.drop_append_of_le_length hle]
    · rw [hread] at h
      cases h

theorem Stable.word (width : Nat) : Stable faults (Reader.word width : Reader ε Nat) :=
  (Stable.bytes width).map _

theorem Stable.u8 : Stable faults (Reader.u8 : Reader ε UInt8) := (Stable.word 1).map _

theorem Stable.u16 : Stable faults (Reader.u16 : Reader ε UInt16) := (Stable.word 2).map _

theorem Stable.u64 : Stable faults (Reader.u64 : Reader ε UInt64) := (Stable.word 8).map _

theorem Stable.times {r : Reader ε α} (hr : Stable faults r) (count : Nat) :
    Stable faults (Reader.times count r) := by
  induction count with
  | zero => exact Stable.pure []
  | succ count ih => exact hr.bind fun _ => ih.bind fun _ => Stable.pure _

theorem Stable.under {r : Reader ε α} (hr : Stable faults r) (present : Bool) (absent : α) :
    Stable faults (Reader.under present absent r) := by
  cases present with
  | true => exact hr
  | false => exact Stable.pure absent

/-! ### Whole inputs -/

theorem runOn_of_runsOut {r : Reader ε α} {bytes : Bytes} (h : RunsOut r (.ofBytes bytes)) :
    r.runOn bytes = .error EndOfBytes.unexpectedEnd := by
  obtain ⟨d, hd⟩ := h
  rw [Reader.runOn, hd]

/-- The outcome on some bytes is a value or a fault, and the same with more bytes behind them, unless
the bytes ran out. -/
theorem Stable.runOn_append {r : Reader ε α} (hr : Stable faults r) {bytes : Bytes}
    (h : r.runOn bytes ≠ .error EndOfBytes.unexpectedEnd) :
    (∀ more, r.runOn (bytes ++ more) = r.runOn bytes) ∧
      ∀ e, r.runOn bytes = .error e → faults e := by
  rcases hr (.ofBytes bytes) with hout | hsettled
  · exact absurd (runOn_of_runsOut hout) h
  · refine ⟨fun more => ?_, fun e he => ?_⟩
    · have hread : r (.ofBytes (bytes ++ more)) = extend more (r (.ofBytes bytes)) :=
        hsettled.extend more
      rw [Reader.runOn, Reader.runOn, hread]
      cases r (.ofBytes bytes) <;> rfl
    · rw [Reader.runOn] at he
      cases hc : r (.ofBytes bytes) with
      | ok a d => simp [hc] at he
      | error e' d =>
        simp only [hc, Except.error.injEq] at he
        exact he ▸ hsettled.faults e' d hc

/-- Of a written form no byte can be missing: had the reader enough without the last ones, it would
leave them behind when they are there. -/
theorem Reads.runsOut {r : Reader ε α} (hr : Stable faults r) {bytes : Bytes} {a : α}
    (hreads : Reads r bytes a) {front : Bytes} (hfront : front <+: bytes) (hne : front ≠ bytes)
    (offset : Nat) : RunsOut r ⟨offset, front⟩ := by
  obtain ⟨more, rfl⟩ := hfront
  rcases hr ⟨offset, front⟩ with hout | hsettled
  · exact hout
  · have hextend : r ⟨offset, front ++ more⟩ = extend more (r ⟨offset, front⟩) :=
      hsettled.extend more
    have hall := hreads offset []
    rw [List.append_nil, hextend] at hall
    cases hcut : r ⟨offset, front⟩ with
    | ok b d =>
      rw [hcut] at hall
      simp only [extend, Cursor.extend, EStateM.Result.ok.injEq, Cursor.mk.injEq,
        List.append_eq_nil_iff] at hall
      exact absurd (by rw [hall.2.2.2, List.append_nil]) hne
    | error e d =>
      rw [hcut] at hall
      cases hall

end Stable

end Reader
end PackedMovie
