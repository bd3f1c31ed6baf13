/-!
# Numerals

Numbers padded on the left, for columns and for bytes in hexadecimal, and digits read back.
-/
namespace PackedMovie.Numeral

def padLeft (fill : Char) (width : Nat) (text : String) : String :=
  String.ofList (List.replicate (width - text.length) fill) ++ text

/-- Lower-case hexadecimal, of at least `width` digits. -/
def hex (width n : Nat) : String := padLeft '0' width (String.ofList (Nat.toDigits 16 n))

/-- A right-aligned column. -/
def column (width n : Nat) : String := padLeft ' ' width (toString n)

/-- The value of a hexadecimal digit of either case. -/
def hexDigit? (c : Char) : Option Nat :=
  if '0' ≤ c ∧ c ≤ '9' then some (c.toNat - '0'.toNat)
  else if 'a' ≤ c ∧ c ≤ 'f' then some (c.toNat - 'a'.toNat + 10)
  else if 'A' ≤ c ∧ c ≤ 'F' then some (c.toNat - 'A'.toNat + 10)
  else none

/-- Is this a digit of the numerals to some base up to sixteen? -/
def isDigitOf (base : Nat) (c : Char) : Bool :=
  match hexDigit? c with
  | some n => n < base
  | none => false

/-- The number written with some digits. -/
def value? (base : Nat) (digits : List Char) : Option Nat :=
  digits.foldlM (fun n c => (n * base + ·) <$> hexDigit? c) 0

end PackedMovie.Numeral
