import PackedMovie.Text.Numeral

/-!
# Decimals with a fixed number of places

A binary number is written with some places after the point. It is rounded from its exact value, and a value
halfway between two decimals goes to the one whose last digit is even.
-/
namespace PackedMovie.Decimal

/-- A quotient rounded to the nearest integer, a half to the even one. -/
def roundDiv (numerator denominator : Nat) : Nat :=
  let quotient := numerator / denominator
  let twice := 2 * (numerator % denominator)
  if twice < denominator then quotient
  else if denominator < twice then quotient + 1
  else quotient + quotient % 2

/-- The exact value of the bits of a finite double without a sign: a quotient. -/
def ratio (bits : Nat) : Nat × Nat :=
  let power := Nat.pow 2
  let exponent := bits / power 52 % power 11
  let fraction := bits % power 52
  if exponent = 0 then (fraction, power 1074)
  else if exponent < 1075 then (fraction + power 52, power (1075 - exponent))
  else ((fraction + power 52) * power (exponent - 1075), 1)

/-- Digits with a point in front of the last `places` ones. -/
def pointed (places n : Nat) : String :=
  s!"{n / Nat.pow 10 places}." ++ Numeral.padLeft '0' places (toString (n % Nat.pow 10 places))

/-- The decimal of a finite double that is not negative. -/
def fixed (places : Nat) (value : Float) : String :=
  let (numerator, denominator) := ratio value.toBits.toNat
  pointed places (roundDiv (numerator * Nat.pow 10 places) denominator)

end PackedMovie.Decimal
