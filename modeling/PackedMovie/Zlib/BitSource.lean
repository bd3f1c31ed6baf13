import PackedMovie.Bytes.LittleEndian

/-!
# Bits of a deflate stream

The bits of each byte come lowest first. A source holds the bits left of the byte it has begun and the
bytes behind it; every step fails if the source runs dry.
-/
namespace PackedMovie.Zlib

structure BitSource where
  pending : List Bool
  rest : Bytes

/-- A step that takes bits from a source, and fails on a malformed stream. -/
abbrev BitStep := StateT BitSource Option

namespace BitSource

def ofBytes (bytes : Bytes) : BitSource := ⟨[], bytes⟩

/-- How many bits are left. -/
def size (s : BitSource) : Nat := s.pending.length + 8 * s.rest.length

/-- The bits of a byte, lowest first. -/
def bitsOf (b : UInt8) : List Bool := (List.range 8).map b.toNat.testBit

end BitSource

namespace BitStep

def bit : BitStep Bool := fun s =>
  match s.pending, s.rest with
  | b :: pending, rest => some (b, ⟨pending, rest⟩)
  | [], byte :: rest =>
    match BitSource.bitsOf byte with
    | b :: pending => some (b, ⟨pending, rest⟩)
    | [] => none
  | [], [] => none

/-- A number of `count` bits, lowest first. -/
def number : Nat → BitStep Nat
  | 0 => pure 0
  | count + 1 => do
    let low ← bit
    let high ← number count
    pure (low.toNat + 2 * high)

/-- Whole bytes; any bits of a byte already begun are dropped. -/
def bytes (count : Nat) : BitStep Bytes := fun s =>
  let taken := s.rest.take count
  if taken.length = count then some (taken, ⟨[], s.rest.drop count⟩) else none

end BitStep
end PackedMovie.Zlib
