import PackedMovie.Swf.Error

/-!
# Bit fields

Fields of any width follow one another without gaps, the highest bit first. A whole record is filled up
with zero bits to full bytes.
-/
namespace PackedMovie.Swf

namespace Bits

/-- The bits of a number in a field of some width. -/
def ofNat : Nat → Nat → List Bool
  | 0, _ => []
  | width + 1, n => n.testBit width :: ofNat width n

/-- The number in a field. -/
def toNat (bits : List Bool) : Nat := bits.foldl (fun n b => 2 * n + b.toNat) 0

def ofBytes (bytes : Bytes) : List Bool := bytes.flatMap fun b => ofNat 8 b.toNat

/-- Bytes that hold some bits; the last one is filled up with zeros. -/
def toBytes (bits : List Bool) : Bytes :=
  if bits.isEmpty then []
  else UInt8.ofNat (toNat (bits.take 8 ++ List.replicate (8 - bits.length) false))
    :: toBytes (bits.drop 8)
termination_by bits.length
decreasing_by
  rename_i h
  cases bits with
  | nil => exact absurd rfl h
  | cons b rest =>
    rw [List.length_drop, List.length_cons]
    omega

@[simp] theorem length_ofNat (width n : Nat) : (ofNat width n).length = width := by
  induction width with
  | zero => rfl
  | succ width ih => simp [ofNat, ih]

/-- An unsigned field. -/
def unsigned (width : Nat) (n : UInt32) : List Bool := ofNat width n.toNat

/-- A field in two's complement; bits beyond the width are cut off. -/
def signed (width : Nat) (n : Int32) : List Bool := unsigned width n.toUInt32

end Bits

/-- Unread bits, and how many were read before them. -/
structure BitCursor where
  read : Nat
  rest : List Bool
  deriving DecidableEq, Repr

/-- A step that reads bit fields and leaves a cursor behind, also when it fails. -/
abbrev BitReader := EStateM Error BitCursor

namespace BitCursor

def ofBytes (bytes : Bytes) : BitCursor := ⟨0, Bits.ofBytes bytes⟩

/-- How many bytes have been begun. -/
def byteLength (c : BitCursor) : Nat := (c.read + 7) / 8

end BitCursor

namespace BitReader

/-- The number in the next `width` bits. If there are fewer, all of them are taken all the same. -/
def number (width : Nat) : BitReader Nat := fun c =>
  let taken := c.rest.take width
  if taken.length = width then .ok (Bits.toNat taken) ⟨c.read + width, c.rest.drop width⟩
  else .error .unexpectedEnd ⟨c.read + taken.length, []⟩

/-- An unsigned field; of a wider one than 32 bits the low 32 count. -/
def unsigned (width : Nat) : BitReader UInt32 := UInt32.ofNat <$> number width

/-- A field in two's complement; of a wider one than 32 bits the low 32 count. -/
def signed (width : Nat) : BitReader Int32 :=
  (fun n : Nat => Int32.ofInt (if width < 32 then Int.bmod n (Nat.pow 2 width) else n)) <$> number width

end BitReader
end PackedMovie.Swf
