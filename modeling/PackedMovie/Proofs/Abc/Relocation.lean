import PackedMovie.Proofs.Abc.Fields
import PackedMovie.Proofs.Bytes.Local

/-!
# Fields read elsewhere

A fault of an integer says where the integer began. Apart from that a field is read alike wherever it
stands: as the same value if it has one, and otherwise with the fault of that other place.

Main statements: `Relocates.bind`, `relocates_u30`.
-/
namespace PackedMovie

/-- The same bytes, `n` places further on. -/
def Cursor.ahead (n : Nat) (c : Cursor) : Cursor := ⟨n + c.offset, c.rest⟩

namespace Reader

variable {ε α β : Type} {r : Reader ε α} {f : α → Reader ε β} {c d : Cursor} {e : ε}

theorem bind_eq_error (h : (r >>= f) c = .error e d) :
    r c = .error e d ∨ ∃ a c', r c = .ok a c' ∧ f a c' = .error e d := by
  cases hr : r c with
  | ok a c' =>
    refine .inr ⟨a, c', rfl, ?_⟩
    simpa only [Bind.bind, EStateM.bind, hr] using h
  | error e' c' =>
    simp only [Bind.bind, EStateM.bind, hr, EStateM.Result.error.injEq] at h
    exact .inl (by rw [h.1, h.2])

theorem error_bind (h : r c = .error e d) : (r >>= f) c = .error e d := by
  simp only [Bind.bind, EStateM.bind, h]

end Reader

namespace Abc

open PackedMovie.Reader (Reads Local bind_eq_error error_bind)

/-- The same fault, `n` bytes further on, if it says where it is. -/
def Error.ahead (n : Nat) : Error → Error
  | .invalidOpcode opcode offset => .invalidOpcode opcode (n + offset)
  | .invalidInteger offset => .invalidInteger (n + offset)
  | e => e

/-- What can be wrong with a number: it does not end, or the bytes end before it. -/
inductive IsNumberFault : Error → Prop
  | integer (offset : Nat) : IsNumberFault (.invalidInteger offset)
  | unexpectedEnd : IsNumberFault .unexpectedEnd

/-- Values are the same everywhere, and only faults know where they are. -/
structure Relocates {α : Type} (r : Reader α) : Prop where
  reads : ∀ {c d : Cursor} {a : α}, r c = .ok a d → ∃ used, c.rest = used ++ d.rest ∧ Reads r used a
  faults : ∀ {c d : Cursor} {e : Error}, r c = .error e d →
    IsNumberFault e ∧ ∀ n, ∃ d', r (c.ahead n) = .error (e.ahead n) d'

theorem Relocates.pure {α : Type} (a : α) : Relocates (Pure.pure a : Reader α) where
  reads := (Local.pure a).reads
  faults h := by cases h

section

variable {α β : Type} {r : Reader α}

theorem Relocates.bind {f : α → Reader β} (hr : Relocates r) (hf : ∀ a, Relocates (f a)) :
    Relocates (r >>= f) where
  reads h := by
    obtain ⟨a, c', hra, hfa⟩ := Reader.bind_eq_ok_iff.1 h
    obtain ⟨front, hfront, hreads⟩ := hr.reads hra
    obtain ⟨back, hback, hreads'⟩ := (hf a).reads hfa
    exact ⟨front ++ back, by rw [hfront, hback, List.append_assoc], hreads.bind hreads'⟩
  faults {c d e} h := by
    rcases bind_eq_error h with hfirst | ⟨a, c', hra, hfa⟩
    · obtain ⟨hfault, hmoved⟩ := hr.faults hfirst
      exact ⟨hfault, fun n => (hmoved n).imp fun d' h' => error_bind h'⟩
    · obtain ⟨offset, rest⟩ := c
      obtain ⟨offset', left⟩ := c'
      obtain ⟨front, rfl, hreads⟩ := hr.reads hra
      obtain ⟨hfault, hmoved⟩ := (hf a).faults hfa
      -- The second step begins as many bytes behind the first one as here.
      have hplace := hra.symm.trans (hreads offset left)
      cases hplace
      refine ⟨hfault, fun n => (hmoved n).imp fun d' h' => ?_⟩
      rw [Cursor.ahead, hreads.bind_eq (n + offset) left, Nat.add_assoc]
      exact h'

theorem Relocates.map (f : α → β) (hr : Relocates r) : Relocates (f <$> r) := by
  rw [map_eq_pure_bind]
  exact hr.bind fun a => Relocates.pure (f a)

theorem Relocates.times (hr : Relocates r) (count : Nat) : Relocates (Reader.times count r) := by
  induction count with
  | zero => exact Relocates.pure []
  | succ count ih => exact hr.bind fun _ => ih.bind fun _ => Relocates.pure _

end

/-! ### Numbers -/

theorem relocates_bytes (count : Nat) :
    Relocates (PackedMovie.Reader.bytes count : Reader Bytes) where
  reads := (Local.bytes count).reads
  faults {c d e} h := by
    have hmoved := (Local.bytes count).error_elsewhere h
    simp only [Reader.bytes] at h
    split at h
    · cases h
    · cases h
      exact ⟨.unexpectedEnd, fun n => hmoved (n + c.offset)⟩

theorem relocates_u8 : Relocates (PackedMovie.Reader.u8 : Reader UInt8) :=
  ((relocates_bytes 1).map _).map _

theorem relocates_s24 : Relocates (PackedMovie.Reader.s24 : Reader Int32) :=
  ((relocates_bytes 3).map _).map _

theorem groups_cons (start count offset : Nat) (byte : UInt8) (rest : Bytes) :
    Reader.groups start (count + 1) ⟨offset, byte :: rest⟩ =
      if Base128.isLast byte then .ok [byte] ⟨offset + 1, rest⟩
      else (Reader.groups start count >>= fun run => pure (byte :: run)) ⟨offset + 1, rest⟩ := by
  refine ((Reads.u8 byte).bind_eq offset rest).trans ?_
  split
  · rfl
  · rfl

/-- The groups that are read end with the first that is a last one. -/
theorem groups_eq_ok {start count : Nat} {c d : Cursor} {run : Bytes}
    (h : Reader.groups start count c = .ok run d) :
    Base128.IsRun run ∧ run.length ≤ count ∧ c.rest = run ++ d.rest := by
  induction count generalizing c run with
  | zero => cases h
  | succ count ih =>
    obtain ⟨offset, rest⟩ := c
    cases rest with
    | nil => cases h
    | cons byte rest =>
      rw [groups_cons] at h
      split at h
      · rename_i hlast
        cases h
        exact ⟨.last hlast, Nat.succ_le_succ (Nat.zero_le count), rfl⟩
      · rename_i hmore
        obtain ⟨tail, c', htail, h⟩ := Reader.bind_eq_ok_iff.1 h
        cases h
        obtain ⟨hrun, hlength, hrest⟩ := ih htail
        exact ⟨.more (Bool.eq_false_iff.2 hmore) hrun, Nat.succ_le_succ hlength,
          congrArg (byte :: ·) hrest⟩

/-- An integer that has no end within its groups began at `start`. -/
theorem groups_eq_error {start count : Nat} {c d : Cursor} {e : Error}
    (h : Reader.groups start count c = .error e d) :
    IsNumberFault e ∧
      ∀ n, ∃ d', Reader.groups (n + start) count (c.ahead n) = .error (e.ahead n) d' := by
  induction count generalizing c with
  | zero =>
    cases h
    exact ⟨.integer start, fun n => ⟨_, rfl⟩⟩
  | succ count ih =>
    obtain ⟨offset, rest⟩ := c
    cases rest with
    | nil =>
      cases h
      exact ⟨.unexpectedEnd, fun n => ⟨_, rfl⟩⟩
    | cons byte rest =>
      simp only [groups_cons, Cursor.ahead] at h ⊢
      split at h
      · cases h
      · rename_i hmore
        rcases bind_eq_error h with htail | ⟨run, c', -, hpure⟩
        · obtain ⟨hfault, hmoved⟩ := ih htail
          refine ⟨hfault, fun n => (hmoved n).imp fun d' h' => ?_⟩
          rw [if_neg hmore]
          exact error_bind h'
        · cases hpure

theorem relocates_integer : Relocates Reader.integer where
  reads {c d run} h := by
    obtain ⟨hrun, hlength, hrest⟩ :=
      groups_eq_ok (show Reader.groups c.offset maxGroups c = .ok run d from h)
    exact ⟨run, hrest, reads_integer hrun hlength⟩
  faults {c d e} h :=
    groups_eq_error (show Reader.groups c.offset maxGroups c = .error e d from h)

theorem relocates_u30 : Relocates Reader.u30 := relocates_integer.map _

end Abc
end PackedMovie
