import PackedMovie.Bytes.Base128

/-!
# Runs of seven-bit groups

A run of groups ends with its first byte without the high bit. What is written, signed or not, is
one such run, no longer than the number's size asks for, and has the number as its value.
-/
namespace PackedMovie.Base128

/-- The last byte, and no other, says that the run ends. -/
inductive IsRun : Bytes → Prop
  | last {b : UInt8} : isLast b = true → IsRun [b]
  | more {b : UInt8} {rest : Bytes} : isLast b = false → IsRun rest → IsRun (b :: rest)

theorem isLast_ofNat {n : Nat} (h : n < 128) : isLast (UInt8.ofNat n) = true := by
  have hn : (UInt8.ofNat n).toNat = n := by
    rw [UInt8.toNat_ofNat']
    omega
  simp only [isLast, UInt8.lt_iff_toNat_lt, hn, decide_eq_true_eq]
  exact h

theorem isLast_ofNat_add {n : Nat} (h : n < 128) : isLast (UInt8.ofNat (n + 128)) = false := by
  have hn : (UInt8.ofNat (n + 128)).toNat = n + 128 := by
    rw [UInt8.toNat_ofNat']
    omega
  simp only [isLast, UInt8.lt_iff_toNat_lt, hn, decide_eq_false_iff_not]
  exact Nat.not_lt.2 (Nat.le_add_left 128 n)

/-! ### Unsigned numbers -/

theorem isRun_encode (n : Nat) : IsRun (encode n) := by
  fun_induction encode n with
  | case1 n h => exact .last (isLast_ofNat h)
  | case2 n _ ih => exact .more (isLast_ofNat_add (by omega)) ih

theorem length_encode_le {n k : Nat} (h : n < Nat.pow 128 (k + 1)) : (encode n).length ≤ k + 1 := by
  induction k generalizing n with
  | zero =>
    have h : n < 128 := h
    rw [encode, if_pos h]
    exact Nat.le_refl 1
  | succ k ih =>
    rw [encode]
    split
    · simp
    · have hpow : Nat.pow 128 (k + 1 + 1) = Nat.pow 128 (k + 1) * 128 := rfl
      have hlen : (encode (n / 128)).length ≤ k + 1 := ih (by omega)
      rw [List.length_cons]
      omega

theorem value_lt (groups : Bytes) : value groups < Nat.pow 128 groups.length := by
  induction groups with
  | nil => exact Nat.one_pos
  | cons b rest ih =>
    have hpow : Nat.pow 128 (rest.length + 1) = Nat.pow 128 rest.length * 128 := rfl
    rw [value_cons, List.length_cons, hpow]
    omega

theorem IsRun.exists_length {run : Bytes} (h : IsRun run) : ∃ k, run.length = k + 1 := by
  cases h with
  | last => exact ⟨0, rfl⟩
  | more _ hrest => exact ⟨_, rfl⟩

/-- No run of groups that holds a number is shorter than the encoding. -/
theorem IsRun.length_encode_le {run : Bytes} (h : IsRun run) {n : Nat} (hn : n ≤ value run) :
    (encode n).length ≤ run.length := by
  obtain ⟨k, hk⟩ := h.exists_length
  have hvalue := value_lt run
  rw [hk] at hvalue ⊢
  exact Base128.length_encode_le (Nat.lt_of_le_of_lt hn hvalue)

theorem length_encode_mono {m n : Nat} (h : m ≤ n) : (encode m).length ≤ (encode n).length :=
  (isRun_encode n).length_encode_le (by rwa [value_encode])

/-! ### Signed numbers -/

theorem isRun_encodeSigned (n : Int) : IsRun (encodeSigned n) := by
  fun_induction encodeSigned n with
  | case1 n h => exact .last (isLast_ofNat (by omega))
  | case2 n _ ih => exact .more (isLast_ofNat_add (by omega)) ih

theorem length_encodeSigned_le {n : Int} {k : Nat} (hlow : -(64 * Nat.pow 128 k : Nat) ≤ n)
    (hhigh : n < (64 * Nat.pow 128 k : Nat)) : (encodeSigned n).length ≤ k + 1 := by
  induction k generalizing n with
  | zero =>
    have hpow : Nat.pow 128 0 = 1 := rfl
    rw [hpow] at hlow hhigh
    rw [encodeSigned, if_pos (by omega)]
    exact Nat.le_refl 1
  | succ k ih =>
    rw [encodeSigned]
    split
    · simp
    · have hpow : Nat.pow 128 (k + 1) = Nat.pow 128 k * 128 := rfl
      have hlen : (encodeSigned (n / 128)).length ≤ k + 1 := ih (by omega) (by omega)
      rw [List.length_cons]
      omega

theorem emod_mul (n : Int) {m : Nat} (hm : 0 < m) :
    n % (128 * m : Nat) = n % 128 + 128 * (n / 128 % m) := by
  have hlow : 0 ≤ n / 128 % m := Int.emod_nonneg _ (by omega)
  have hhigh : n / 128 % m < m := Int.emod_lt_of_pos _ (by omega)
  have hsplit : n / 128 % m + m * (n / 128 / m) = n / 128 := Int.emod_add_mul_ediv ..
  have hn : n = n % 128 + 128 * (n / 128 % m) + (128 * m : Nat) * (n / 128 / m) := by
    rw [Int.natCast_mul, Int.mul_assoc]
    omega
  calc
    n % (128 * m : Nat) =
        (n % 128 + 128 * (n / 128 % m) + (128 * m : Nat) * (n / 128 / m)) % (128 * m : Nat) := by
      rw [← hn]
    _ = (n % 128 + 128 * (n / 128 % m)) % (128 * m : Nat) := Int.add_mul_emod_self_left ..
    _ = n % 128 + 128 * (n / 128 % m) := Int.emod_eq_of_lt (by omega) (by omega)

/-- The groups hold the number in two's complement. -/
theorem value_encodeSigned (n : Int) :
    (value (encodeSigned n) : Int) = n % (Nat.pow 128 (encodeSigned n).length : Nat) := by
  fun_induction encodeSigned n with
  | case1 n h =>
    have hpow : Nat.pow 128 [UInt8.ofNat (n % 128).toNat].length = 128 := rfl
    rw [hpow, value_cons, value_nil, UInt8.toNat_ofNat']
    omega
  | case2 n h ih =>
    have hpow : Nat.pow 128 (encodeSigned (n / 128)).length.succ =
      128 * Nat.pow 128 (encodeSigned (n / 128)).length := Nat.mul_comm _ _
    have hpos : 0 < Nat.pow 128 (encodeSigned (n / 128)).length := Nat.pow_pos (by decide)
    rw [List.length_cons, hpow, emod_mul n hpos, ← ih, value_cons, UInt8.toNat_ofNat']
    omega

theorem length_encodeSigned_pos (n : Int) : 0 < (encodeSigned n).length := by
  rw [encodeSigned]
  split <;> simp

/-- Half of the range of the groups lies on either side of zero. -/
theorem encodeSigned_range (n : Int) :
    -(Nat.pow 128 (encodeSigned n).length : Nat) ≤ n * 2 ∧
      n * 2 < (Nat.pow 128 (encodeSigned n).length : Nat) := by
  fun_induction encodeSigned n with
  | case1 n h =>
    have hpow : Nat.pow 128 [UInt8.ofNat (n % 128).toNat].length = 128 := rfl
    rw [hpow]
    omega
  | case2 n h ih =>
    obtain ⟨k, hk⟩ := Nat.exists_eq_succ_of_ne_zero
      (Nat.ne_of_gt (length_encodeSigned_pos (n / 128)))
    have hpow (k : Nat) : Nat.pow 128 k.succ = Nat.pow 128 k * 128 := rfl
    rw [hk, hpow] at ih
    rw [List.length_cons, hpow, hk, hpow]
    omega

theorem signedValue_encodeSigned (n : Int) : signedValue (encodeSigned n) = n := by
  obtain ⟨hlow, hhigh⟩ := encodeSigned_range n
  rw [signedValue, value_encodeSigned, Int.emod_bmod]
  exact Int.bmod_eq_of_le_mul_two hlow hhigh

/-- Half of the range of a run's groups lies on either side of zero. -/
theorem IsRun.signedValue_range {run : Bytes} (h : IsRun run) :
    -(Nat.pow 128 run.length : Nat) ≤ signedValue run * 2 ∧
      signedValue run * 2 < (Nat.pow 128 run.length : Nat) := by
  obtain ⟨k, hk⟩ := h.exists_length
  have hpow : Nat.pow 128 (k + 1) = Nat.pow 128 k * 128 := rfl
  have hpos : 0 < Nat.pow 128 (k + 1) := Nat.pow_pos (by decide)
  have hlow := Int.le_bmod (x := value run) hpos
  have hhigh := Int.bmod_lt (x := value run) hpos
  rw [signedValue, hk]
  omega

/-- No run of groups that holds a signed number is shorter than the encoding. -/
theorem IsRun.length_encodeSigned_le {run : Bytes} (h : IsRun run) :
    (encodeSigned (signedValue run)).length ≤ run.length := by
  obtain ⟨hlow, hhigh⟩ := h.signedValue_range
  obtain ⟨k, hk⟩ := h.exists_length
  have hpow : Nat.pow 128 (k + 1) = Nat.pow 128 k * 128 := rfl
  rw [hk] at hlow hhigh ⊢
  exact Base128.length_encodeSigned_le (by omega) (by omega)

end PackedMovie.Base128
