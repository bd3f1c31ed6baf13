/-!
# Dates and times of TOML

A moment is a date, a time of day, or both with perhaps an offset. Readers return the text behind it.
-/
namespace PackedMovie.Toml

/-- A number of exactly so many digits that lies in a range. -/
def fixedNumber? (width low high : Nat) (cs : List Char) : Option (Nat × List Char) :=
  let digits := cs.take width
  if digits.length = width ∧ digits.all Char.isDigit then
    let n := digits.foldl (fun n c => n * 10 + (c.toNat - '0'.toNat)) 0
    if low ≤ n ∧ n ≤ high then some (n, cs.drop width) else none
  else none

def mark? (mark : Char) : List Char → Option (List Char)
  | c :: rest => if c = mark then some rest else none
  | [] => none

def isLeapYear (year : Nat) : Bool := year % 4 = 0 && (year % 100 ≠ 0 || year % 400 = 0)

def daysIn (year month : Nat) : Nat :=
  if month = 2 then if isLeapYear year then 29 else 28
  else if month ∈ [4, 6, 9, 11] then 30
  else 31

def date? (cs : List Char) : Option (List Char) := do
  let (year, rest) ← fixedNumber? 4 0 9999 cs
  let (month, rest) ← fixedNumber? 2 1 12 (← mark? '-' rest)
  let (_, rest) ← fixedNumber? 2 1 (daysIn year month) (← mark? '-' rest)
  pure rest

/-- Hours and minutes. -/
def clock? (cs : List Char) : Option (List Char) := do
  let (_, rest) ← fixedNumber? 2 0 23 cs
  let (_, rest) ← fixedNumber? 2 0 59 (← mark? ':' rest)
  pure rest

/-- A fraction of a second needs a digit; without one the point is not part of the time. -/
def skipFraction : List Char → List Char
  | '.' :: c :: rest => if c.isDigit then rest.dropWhile Char.isDigit else '.' :: c :: rest
  | cs => cs

/-- A minute may have a leap second. -/
def time? (cs : List Char) : Option (List Char) := do
  let (_, rest) ← fixedNumber? 2 0 60 (← mark? ':' (← clock? cs))
  pure (skipFraction rest)

def skipOffset (cs : List Char) : List Char :=
  match cs with
  | 'Z' :: rest => rest
  | 'z' :: rest => rest
  | '+' :: rest => (clock? rest).getD cs
  | '-' :: rest => (clock? rest).getD cs
  | _ => cs

/-- Between a date and its time. -/
def isTimeMark (c : Char) : Bool := c = 'T' || c = 't' || c = ' '

def moment? (cs : List Char) : Option (List Char) :=
  match date? cs with
  | none => time? cs
  | some [] => some []
  | some (c :: rest) =>
    match if isTimeMark c then time? rest else none with
    | some after => some (skipOffset after)
    | none => some (c :: rest)

end PackedMovie.Toml
