import PackedMovie.Proofs.Bytes.Exact

/-!
# How many bytes a value takes

A reader that takes bytes off the front takes a certain number of them for each value. What holds of
a value and this number passes from the parts of a reader to the whole: the numbers of the parts add
up.

Main statements: `Takes.bind`, `Takes.times`.
-/
namespace PackedMovie

/-- `d` is reached from `c` by taking as many bytes as `P` says. -/
def Cursor.Took (c d : Cursor) (P : Nat → Prop) : Prop :=
  ∃ used, c.rest = used ++ d.rest ∧ d.offset = c.offset + used.length ∧ P used.length

namespace Cursor.Took

variable {c d e : Cursor} {P Q : Nat → Prop}

theorem refl (h : P 0) (c : Cursor) : c.Took c P := ⟨[], rfl, rfl, h⟩

theorem trans (h : c.Took d P) (h' : ∀ m, P m → d.Took e fun n => Q (m + n)) : c.Took e Q := by
  obtain ⟨front, hfront, hplace, hP⟩ := h
  obtain ⟨back, hback, hplace', hQ⟩ := h' _ hP
  refine ⟨front ++ back, ?_, ?_, ?_⟩
  · rw [hfront, hback, List.append_assoc]
  · rw [hplace', hplace, List.length_append, Nat.add_assoc]
  · rwa [List.length_append]

theorem mono (h : c.Took d P) (hPQ : ∀ n, P n → Q n) : c.Took d Q := by
  obtain ⟨used, hrest, hplace, hP⟩ := h
  exact ⟨used, hrest, hplace, hPQ _ hP⟩

theorem length_le {k : Nat} (h : c.Took d (k ≤ ·)) : k + d.rest.length ≤ c.rest.length := by
  obtain ⟨used, hrest, -, hk⟩ := h
  rw [hrest, List.length_append]
  exact Nat.add_le_add_right hk _

end Cursor.Took

namespace Reader

variable {ε α β : Type}

/-- Of every value that `r` gives, and the number of bytes it takes for it, `P` holds. -/
def Takes (r : Reader ε α) (P : α → Nat → Prop) : Prop :=
  ∀ c d a, r c = .ok a d → c.Took d (P a)

section

variable {r : Reader ε α} {P Q : α → Nat → Prop}

theorem Takes.mono (h : Takes r P) (hPQ : ∀ a n, P a n → Q a n) : Takes r Q :=
  fun c d a ha => (h c d a ha).mono (hPQ a)

theorem Takes.pure {a : α} (h : P a 0) : Takes (Pure.pure a : Reader ε α) P := by
  intro c d b hb
  cases hb
  exact .refl h c

theorem Takes.throw (e : ε) (P : α → Nat → Prop) : Takes (MonadExcept.throw e : Reader ε α) P := by
  intro c d b hb
  cases hb

theorem Takes.bind {f : α → Reader ε β} {R : β → Nat → Prop} (hr : Takes r P)
    (hf : ∀ a m, P a m → Takes (f a) fun b n => R b (m + n)) : Takes (r >>= f) R := by
  intro c d b hb
  obtain ⟨a, e, ha, hfa⟩ := bind_eq_ok_iff.1 hb
  exact (hr c e a ha).trans fun m hm => hf a m hm e d b hfa

theorem Takes.map {f : α → β} {R : β → Nat → Prop} (hr : Takes r fun a n => R (f a) n) :
    Takes (f <$> r) R := by
  intro c d b hb
  obtain ⟨a, ha, rfl⟩ := map_eq_ok_iff.1 hb
  exact hr c d a ha

/-- What members add up to is added up while they are read. -/
theorem Takes.times {R : List α → Nat → Prop} (hr : Takes r P) (hnil : R [] 0)
    (hcons : ∀ a as m n, P a m → R as n → R (a :: as) (m + n)) (count : Nat) :
    Takes (Reader.times count r) fun as n => as.length = count ∧ R as n := by
  induction count with
  | zero => exact Takes.pure ⟨rfl, hnil⟩
  | succ count ih =>
    refine hr.bind fun a m hm => ih.bind fun as n hn => Takes.pure ⟨?_, ?_⟩
    · rw [List.length_cons, hn.1]
    · exact hcons a as m n hm hn.2

end

/-! ### Words -/

section Primitive

variable [EndOfBytes ε]

theorem Takes.bytes (count : Nat) :
    Takes (Reader.bytes count : Reader ε Bytes) fun raw n => raw.length = count ∧ n = count := by
  intro c d raw h
  obtain ⟨hlength, hrest, hplace⟩ := bytes_eq_ok_iff.1 h
  exact ⟨raw, hrest, by rw [hplace, hlength], hlength, hlength⟩

theorem Takes.word (width : Nat) : Takes (Reader.word width : Reader ε Nat) fun _ n => n = width :=
  ((Takes.bytes width).mono fun _ _ h => h.2).map

theorem Takes.u8 : Takes (Reader.u8 : Reader ε UInt8) fun _ n => n = 1 := (Takes.word 1).map

theorem Takes.u16 : Takes (Reader.u16 : Reader ε UInt16) fun _ n => n = 2 := (Takes.word 2).map

theorem Takes.u64 : Takes (Reader.u64 : Reader ε UInt64) fun _ n => n = 8 := (Takes.word 8).map

end Primitive

end Reader
end PackedMovie
