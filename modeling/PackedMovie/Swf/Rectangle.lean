import PackedMovie.Swf.Bits

/-!
# Rectangles

Four signed coordinates of one common width, which stands in front of them in five bits.
-/
namespace PackedMovie.Swf

/-- Coordinates are twentieths of a pixel. -/
structure Rectangle where
  xMin : Int32
  xMax : Int32
  yMin : Int32
  yMax : Int32
  deriving DecidableEq, Repr

namespace Rectangle

/-- A rectangle at the origin, of a size in pixels. -/
def ofPixels (width height : Int32) : Rectangle := ⟨0, width * 20, 0, height * 20⟩

/-- The widest field that five bits can announce. -/
def maxWidth : Nat := 31

/-- The bits of a number, none for zero. -/
def bitLength (n : Nat) : Nat := if n = 0 then 0 else Nat.log2 n + 1

/-- The bits of a number, of its complement if it is negative, and one for the sign. -/
def signedWidth (n : Int32) : Nat :=
  let magnitude := if n < 0 then ~~~n else n
  min maxWidth (bitLength magnitude.toUInt32.toNat + 1)

def fieldWidth (r : Rectangle) : Nat :=
  max (max (signedWidth r.xMin) (signedWidth r.xMax)) (max (signedWidth r.yMin) (signedWidth r.yMax))

def bits (r : Rectangle) : List Bool :=
  Bits.ofNat 5 r.fieldWidth
    ++ Bits.signed r.fieldWidth r.xMin ++ Bits.signed r.fieldWidth r.xMax
    ++ Bits.signed r.fieldWidth r.yMin ++ Bits.signed r.fieldWidth r.yMax

def write (r : Rectangle) : Bytes := Bits.toBytes r.bits

def readBits : BitReader Rectangle := do
  let width ← BitReader.number 5
  let xMin ← BitReader.signed width
  let xMax ← BitReader.signed width
  let yMin ← BitReader.signed width
  let yMax ← BitReader.signed width
  pure { xMin, xMax, yMin, yMax }

/-- What follows begins with a new byte. -/
def read : Reader Rectangle := do
  let start ← get
  match readBits (.ofBytes start.rest) with
  | .ok r c =>
    let _ ← PackedMovie.Reader.bytes c.byteLength
    pure r
  | .error e _ => throw e

end Rectangle
end PackedMovie.Swf
