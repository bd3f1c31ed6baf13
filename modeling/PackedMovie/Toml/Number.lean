import PackedMovie.Text.Numeral
import PackedMovie.Toml.Item

/-!
# Numbers of TOML

Integers lie in the 64-bit signed range; a float may not be so large that it rounds to infinity.
-/
namespace PackedMovie.Toml

/-- Digits behind a first one. A single underscore may stand between two digits. -/
def moreDigits (isDigit : Char → Bool) : List Char → Option (List Char × List Char)
  | [] => some ([], [])
  | '_' :: c :: rest =>
    if isDigit c then (moreDigits isDigit rest).map fun (digits, after) => (c :: digits, after)
    else none
  | c :: rest =>
    if isDigit c then (moreDigits isDigit rest).map fun (digits, after) => (c :: digits, after)
    else if c = '_' then none
    else some ([], c :: rest)

/-- At least one digit; the underscores are left out. -/
def digitRun? (isDigit : Char → Bool) : List Char → Option (List Char × List Char)
  | [] => none
  | c :: rest =>
    if isDigit c then (moreDigits isDigit rest).map fun (digits, after) => (c :: digits, after)
    else none

/-- Digits in front of a fraction. A leading zero stands alone. -/
def wholeDigits? : List Char → Option (List Char × List Char)
  | '0' :: rest => some (['0'], rest)
  | cs => digitRun? Char.isDigit cs

def sign : List Char → List Char × List Char
  | '+' :: rest => (['+'], rest)
  | '-' :: rest => (['-'], rest)
  | cs => ([], cs)

/-- The value of digits that are all below the base. -/
def magnitude (base : Nat) (digits : List Char) : Nat := (Numeral.value? base digits).getD 0

/-- Twice as many integers as this fit into 64 bits. -/
def integerBound : Nat := Nat.pow 2 63

def integer? (value : Int) : Option Item :=
  if -integerBound ≤ value ∧ value < integerBound then some (.integer value) else none

def signed (sign : List Char) (n : Nat) : Int := if sign = ['-'] then -n else n

/-- The least number that rounds to infinity. -/
def infiniteFrom : Nat := Nat.pow 2 1024 - Nat.pow 2 970

/-- Does the decimal `n * 10 ^ exponent` round to infinity? The number of its digits mostly decides. -/
def isInfinite (n : Nat) (exponent : Int) : Bool :=
  let places : Int := (Nat.toDigits 10 n).length + exponent
  if n = 0 ∨ places < 309 then false
  else if 309 < places then true
  else if 0 ≤ exponent then infiniteFrom ≤ n * Nat.pow 10 exponent.toNat
  else infiniteFrom * Nat.pow 10 (-exponent).toNat ≤ n

def float? (sign whole fraction : List Char) (exponent : Int) : Option Item :=
  if sign ≠ ['-'] ∧ isInfinite (magnitude 10 (whole ++ fraction)) (exponent - fraction.length) then none
  else some (.float (String.ofList (sign ++ whole ++ '.' :: fraction ++ 'e' :: (toString exponent).toList)))

/-- The exponent behind its mark. -/
def exponent? (cs : List Char) : Option (Int × List Char) :=
  let (sign, unsigned) := sign cs
  (digitRun? Char.isDigit unsigned).map fun (digits, after) => (signed sign (magnitude 10 digits), after)

def isExponentMark (c : Char) : Bool := c = 'e' || c = 'E'

/-- The exponent if there is one here, and zero otherwise. -/
def exponentOrZero? (cs : List Char) : Option (Int × List Char) :=
  match cs with
  | c :: rest => if isExponentMark c then exponent? rest else some (0, cs)
  | [] => some (0, [])

/-- A whole number to the base that its first two characters name. -/
def basedInteger? (base : Nat) (cs : List Char) : Option (Item × List Char) := do
  let (digits, after) ← digitRun? (Numeral.isDigitOf base) cs
  let item ← integer? (magnitude base digits)
  pure (item, after)

def decimal? (sign cs : List Char) : Option (Item × List Char) := do
  let (whole, rest) ← wholeDigits? cs
  match rest with
  | '.' :: more =>
    let (fraction, afterFraction) ← digitRun? Char.isDigit more
    let (exponent, after) ← exponentOrZero? afterFraction
    let item ← float? sign whole fraction exponent
    pure (item, after)
  | c :: more =>
    if isExponentMark c then
      let (exponent, after) ← exponent? more
      let item ← float? sign whole [] exponent
      pure (item, after)
    else
      let item ← integer? (signed sign (magnitude 10 whole))
      pure (item, rest)
  | [] =>
    let item ← integer? (signed sign (magnitude 10 whole))
    pure (item, rest)

def number? : List Char → Option (Item × List Char)
  | '0' :: 'x' :: rest => basedInteger? 16 rest
  | '0' :: 'o' :: rest => basedInteger? 8 rest
  | '0' :: 'b' :: rest => basedInteger? 2 rest
  | cs =>
    match sign cs with
    | (sign, 'i' :: 'n' :: 'f' :: rest) => some (.float (String.ofList sign ++ "inf"), rest)
    | (sign, 'n' :: 'a' :: 'n' :: rest) => some (.float (String.ofList sign ++ "nan"), rest)
    | (sign, unsigned) => decimal? sign unsigned

end PackedMovie.Toml
