import PackedMovie.Swf.Bits

/-!
# Bit fields read back

A field is read back as the number that was written, modulo its width, and bytes hold the bits that
they were made of, with zeros behind them.

Main statements: `BitReads.signed`, `Bits.ofBytes_toBytes`.
-/
namespace PackedMovie.Swf

namespace Bits

/-! ### Numbers -/

theorem foldl_toNat (bits : List Bool) (n : Nat) :
    bits.foldl (fun n b => 2 * n + b.toNat) n = n * Nat.pow 2 bits.length + toNat bits := by
  induction bits generalizing n with
  | nil => exact (Nat.mul_one n).symm
  | cons b rest ih =>
    have hpow : Nat.pow 2 (rest.length + 1) = Nat.pow 2 rest.length * 2 := rfl
    rw [toNat, List.foldl_cons, List.foldl_cons, ih, ih (2 * 0 + b.toNat), List.length_cons, hpow,
      Nat.add_mul, ← Nat.add_assoc]
    congr 1
    rw [Nat.mul_zero, Nat.zero_add, Nat.mul_comm 2 n, Nat.mul_assoc, Nat.mul_comm 2]

theorem toNat_cons (b : Bool) (rest : List Bool) :
    toNat (b :: rest) = b.toNat * Nat.pow 2 rest.length + toNat rest := by
  rw [toNat, List.foldl_cons, foldl_toNat, Nat.mul_zero, Nat.zero_add]

theorem toNat_lt (bits : List Bool) : toNat bits < Nat.pow 2 bits.length := by
  induction bits with
  | nil => exact Nat.one_pos
  | cons b rest ih =>
    have hpow : Nat.pow 2 (rest.length + 1) = Nat.pow 2 rest.length * 2 := rfl
    rw [toNat_cons, List.length_cons, hpow]
    cases b with
    | false =>
      rw [Bool.toNat_false]
      omega
    | true =>
      rw [Bool.toNat_true]
      omega

/-- A field keeps the number modulo its width. -/
theorem toNat_ofNat (width n : Nat) : toNat (ofNat width n) = n % Nat.pow 2 width := by
  induction width with
  | zero => exact (Nat.mod_one n).symm
  | succ width ih =>
    have hpow : Nat.pow 2 (width + 1) = Nat.pow 2 width * 2 := rfl
    have hbit : (n.testBit width).toNat = n / Nat.pow 2 width % 2 := Nat.toNat_testBit n width
    rw [ofNat, toNat_cons, ih, length_ofNat, hbit, hpow, Nat.mod_mul, Nat.mul_comm, Nat.add_comm]

theorem eq_of_toNat_eq {bits others : List Bool} (hlength : bits.length = others.length)
    (h : toNat bits = toNat others) : bits = others := by
  induction bits generalizing others with
  | nil => exact (List.length_eq_zero_iff.1 hlength.symm).symm
  | cons b rest ih =>
    cases others with
    | nil => cases hlength
    | cons c others =>
      rw [List.length_cons, List.length_cons, Nat.succ_inj] at hlength
      have hrest := toNat_lt rest
      have hothers := toNat_lt others
      rw [toNat_cons, toNat_cons, hlength] at h
      rw [hlength] at hrest
      cases b <;> cases c <;> simp only [Bool.toNat_false, Bool.toNat_true] at h
      · rw [ih hlength (by omega)]
      · omega
      · omega
      · rw [ih hlength (by omega)]

/-- What is left of a number in a signed field of some width. -/
def kept (width : Nat) (n : Int32) : Int32 :=
  let low := n.toUInt32.toNat % Nat.pow 2 width
  Int32.ofInt (if width < 32 then Int.bmod low (Nat.pow 2 width) else low)

/-! ### Bytes -/

theorem ofNat_toNat (bits : List Bool) : ofNat bits.length (toNat bits) = bits := by
  apply eq_of_toNat_eq (length_ofNat _ _)
  rw [toNat_ofNat]
  exact Nat.mod_eq_of_lt (toNat_lt bits)

theorem ofBytes_append (front back : Bytes) :
    ofBytes (front ++ back) = ofBytes front ++ ofBytes back :=
  List.flatMap_append

theorem length_ofBytes (bytes : Bytes) : (ofBytes bytes).length = 8 * bytes.length := by
  induction bytes with
  | nil => rfl
  | cons b rest ih =>
    rw [ofBytes, List.flatMap_cons, ← ofBytes, List.length_append, ih, length_ofNat,
      List.length_cons]
    omega

theorem ofBytes_byte {bits : List Bool} (h : bits.length = 8) :
    ofNat 8 (UInt8.ofNat (toNat bits)).toNat = bits := by
  have hlt := toNat_lt bits
  rw [h] at hlt
  rw [UInt8.toNat_ofNat_of_lt' hlt]
  have hbits := ofNat_toNat bits
  rwa [h] at hbits

/-- Bytes hold the bits they were made of, and zeros up to the next byte. -/
theorem ofBytes_toBytes (bits : List Bool) :
    ∃ count, ofBytes (toBytes bits) = bits ++ List.replicate count false := by
  fun_induction toBytes bits with
  | case1 bits h =>
    refine ⟨0, ?_⟩
    rw [List.isEmpty_iff.1 h]
    rfl
  | case2 bits h ih =>
    obtain ⟨count, hrest⟩ := ih
    have hchunk : (bits.take 8 ++ List.replicate (8 - bits.length) false).length = 8 := by
      rw [List.length_append, List.length_take, List.length_replicate]
      omega
    rw [ofBytes, List.flatMap_cons, ← ofBytes, ofBytes_byte hchunk, hrest]
    by_cases hlong : 8 ≤ bits.length
    · refine ⟨count, ?_⟩
      rw [Nat.sub_eq_zero_of_le hlong, List.replicate_zero, List.append_nil, ← List.append_assoc,
        List.take_append_drop]
    · refine ⟨8 - bits.length + count, ?_⟩
      rw [List.take_of_length_le (by omega), List.drop_eq_nil_of_le (by omega), List.nil_append,
        List.append_assoc, List.replicate_append_replicate]

theorem length_toBytes (bits : List Bool) : (toBytes bits).length = (bits.length + 7) / 8 := by
  fun_induction toBytes bits with
  | case1 bits h =>
    rw [List.isEmpty_iff.1 h]
    rfl
  | case2 bits h ih =>
    have hpos : bits ≠ [] := by simpa using h
    have hlength := List.length_pos_iff.2 hpos
    rw [List.length_cons, ih, List.length_drop]
    omega

end Bits

/-! ### Fields -/

/-- `r` takes exactly `bits` off the front, wherever they stand, and makes `a` of them. -/
def BitReads {α : Type} (r : BitReader α) (bits : List Bool) (a : α) : Prop :=
  ∀ read rest, r ⟨read, bits ++ rest⟩ = .ok a ⟨read + bits.length, rest⟩

namespace BitReads

variable {α β : Type}

theorem bind {r : BitReader α} {f : α → BitReader β} {front back : List Bool} {a : α} {b : β}
    (hr : BitReads r front a) (hf : BitReads (f a) back b) :
    BitReads (r >>= f) (front ++ back) b := by
  intro read rest
  simp only [Bind.bind, EStateM.bind]
  rw [List.append_assoc, hr read (back ++ rest)]
  simp only
  rw [hf, List.length_append, Nat.add_assoc]

theorem map {r : BitReader α} {bits : List Bool} {a : α} (f : α → β) (hr : BitReads r bits a) :
    BitReads (f <$> r) bits (f a) := by
  intro read rest
  simp only [Functor.map, EStateM.map]
  rw [hr read rest]

theorem bind_pure {r : BitReader α} {f : α → β} {bits : List Bool} {a : α}
    (hr : BitReads r bits a) :
    BitReads (r >>= fun a => Pure.pure (f a)) bits (f a) := hr.map f

theorem number (width n : Nat) :
    BitReads (BitReader.number width) (Bits.ofNat width n) (n % Nat.pow 2 width) := by
  intro read rest
  have htake : (Bits.ofNat width n ++ rest).take width = Bits.ofNat width n :=
    List.take_left' (Bits.length_ofNat width n)
  have hdrop : (Bits.ofNat width n ++ rest).drop width = rest :=
    List.drop_left' (Bits.length_ofNat width n)
  unfold BitReader.number
  simp only [htake, hdrop, Bits.length_ofNat, Bits.toNat_ofNat, ↓reduceIte]

theorem signed (width : Nat) (n : Int32) :
    BitReads (BitReader.signed width) (Bits.signed width n) (Bits.kept width n) :=
  (number width n.toUInt32.toNat).map _

end BitReads

end PackedMovie.Swf
