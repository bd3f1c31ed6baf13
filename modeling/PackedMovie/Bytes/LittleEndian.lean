/-!
# Byte strings and little-endian words

A byte string is a list of bytes. A word of `width` bytes is written lowest byte first; reading the
bytes back gives the number modulo 256 to the power `width`.
-/
namespace PackedMovie

abbrev Bytes := List UInt8

namespace LittleEndian

/-- The lowest `width` bytes of a number, lowest first. -/
def encode : Nat → Nat → Bytes
  | 0, _ => []
  | width + 1, n => UInt8.ofNat n :: encode width (n / 256)

def decode : Bytes → Nat
  | [] => 0
  | b :: rest => b.toNat + 256 * decode rest

@[simp] theorem length_encode (width n : Nat) : (encode width n).length = width := by
  induction width generalizing n with
  | zero => rfl
  | succ width ih => simp [encode, ih]

theorem decode_encode (width n : Nat) : decode (encode width n) = n % Nat.pow 256 width := by
  induction width generalizing n with
  | zero => exact (Nat.mod_one n).symm
  | succ width ih =>
    have hpow : Nat.pow 256 (width + 1) = 256 * Nat.pow 256 width := Nat.mul_comm _ _
    rw [encode, decode, ih, hpow, Nat.mod_mul]
    simp

theorem decode_lt (bytes : Bytes) : decode bytes < Nat.pow 256 bytes.length := by
  induction bytes with
  | nil => exact Nat.one_pos
  | cons b rest ih =>
    have hpow : Nat.pow 256 (rest.length + 1) = Nat.pow 256 rest.length * 256 := rfl
    have := b.toNat_lt
    rw [decode, List.length_cons, hpow]
    omega

end LittleEndian
end PackedMovie
