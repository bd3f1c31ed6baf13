import PackedMovie.Bytes.LittleEndian

/-!
# Integers in groups of seven bits

A number is written lowest group first; every byte but the last has its high bit set. Signed numbers
are written in two's complement, with just enough groups for the sign to show in the last one.
-/
namespace PackedMovie.Base128

def encode (n : Nat) : Bytes :=
  if n < 128 then [UInt8.ofNat n] else UInt8.ofNat (n % 128 + 128) :: encode (n / 128)
termination_by n
decreasing_by omega

def encodeSigned (n : Int) : Bytes :=
  if -64 ≤ n ∧ n < 64 then [UInt8.ofNat (n % 128).toNat]
  else UInt8.ofNat ((n % 128).toNat + 128) :: encodeSigned (n / 128)
termination_by n.natAbs
decreasing_by omega

/-- Is this the last byte of its integer? -/
def isLast (b : UInt8) : Bool := b < 128

/-- The number in a run of groups; high bits do not count. -/
def value : Bytes → Nat
  | [] => 0
  | b :: rest => b.toNat % 128 + 128 * value rest

/-- The number in a run of groups whose last bit is its sign. -/
def signedValue (groups : Bytes) : Int := Int.bmod (value groups) (Nat.pow 128 groups.length)

@[simp] theorem value_nil : value [] = 0 := rfl

@[simp] theorem value_cons (b : UInt8) (rest : Bytes) :
    value (b :: rest) = b.toNat % 128 + 128 * value rest := rfl

theorem value_encode (n : Nat) : value (encode n) = n := by
  induction n using Nat.strongRecOn with
  | ind n ih =>
    rw [encode]
    split
    · rw [value_cons, value_nil, UInt8.toNat_ofNat']
      omega
    · rw [value_cons, ih (n / 128) (by omega), UInt8.toNat_ofNat']
      omega

end PackedMovie.Base128
