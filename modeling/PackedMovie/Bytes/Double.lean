/-!
# Doubles as bit patterns

A double is kept as its 64 bits, so nothing of it is lost, not even the payload of a NaN. As numbers
two patterns are the same unless one is a NaN, and the two zeros are the same number.
-/
namespace PackedMovie.Double

def isNaN (bits : UInt64) : Bool := bits &&& 0x7FFFFFFFFFFFFFFF > 0x7FF0000000000000

def isZero (bits : UInt64) : Bool := bits &&& 0x7FFFFFFFFFFFFFFF == 0

/-- Equality of numbers. -/
def sameNumber (a b : UInt64) : Bool :=
  !isNaN a && !isNaN b && (a == b || (isZero a && isZero b))

def sameNumbers : List UInt64 → List UInt64 → Bool
  | [], [] => true
  | a :: as, b :: bs => sameNumber a b && sameNumbers as bs
  | _, _ => false

end PackedMovie.Double
