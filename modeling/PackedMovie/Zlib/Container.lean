import PackedMovie.Zlib.Inflate

/-!
# The zlib container

A header of two bytes, a deflate stream and a checksum. Bytes after the checksum do not matter. Writing
stores the bytes as they are, in blocks of at most 65535.
-/
namespace PackedMovie.Zlib

/-- The modulus of the checksum. -/
def adlerModulus : Nat := 65521

/-- The sums of a checksum, moved on by some bytes. -/
def adlerSums : Nat → Nat → Bytes → Nat × Nat
  | low, high, [] => (low, high)
  | low, high, b :: rest =>
    let low := (low + b.toNat) % adlerModulus
    adlerSums low ((high + low) % adlerModulus) rest

def adler32 (bytes : Bytes) : Nat :=
  let (low, high) := adlerSums 1 0 bytes
  high * 65536 + low

/-- Deflate with a window of at most 32 KiB, no dictionary, and a valid check of the header itself. -/
def isHeader (method flags : UInt8) : Bool :=
  (method.toNat * 256 + flags.toNat) % 31 == 0
    && method.toNat % 16 == 8
    && method.toNat / 16 ≤ 7
    && !flags.toNat.testBit 5

def container : BitStep Bytes := do
  match ← BitStep.bytes 2 with
  | [method, flags] =>
    if isHeader method flags then
      let out ← inflate
      let bytes := out.toList
      let check ← BitStep.bytes 4
      if LittleEndian.decode check.reverse = adler32 bytes then pure bytes else fail
    else fail
  | _ => fail

/-- The bytes in a container, if it is well formed and complete. -/
def decompress (bytes : Bytes) : Option Bytes := (container.run (.ofBytes bytes)).map Prod.fst

/-- The longest block that is stored as it is. -/
def maxStored : Nat := 65535

def storedBlock (isLast : Bool) (bytes : Bytes) : Bytes :=
  (if isLast then 1 else 0) :: LittleEndian.encode 2 bytes.length
    ++ LittleEndian.encode 2 (0xFFFF - bytes.length) ++ bytes

def storedBlocks (bytes : Bytes) : Bytes :=
  if maxStored < bytes.length then
    storedBlock false (bytes.take maxStored) ++ storedBlocks (bytes.drop maxStored)
  else storedBlock true bytes
termination_by bytes.length
decreasing_by
  rw [List.length_drop]
  simp only [maxStored] at *
  omega

def compress (bytes : Bytes) : Bytes :=
  [0x78, 0x9C] ++ storedBlocks bytes ++ (LittleEndian.encode 4 (adler32 bytes)).reverse

end PackedMovie.Zlib
