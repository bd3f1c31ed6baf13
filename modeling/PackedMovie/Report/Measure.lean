import PackedMovie.Report.Decimal

/-!
# Sizes and times for people

A measure is written with two places in the first unit in which it is below the factor between units, or else
in the last unit.
-/
namespace PackedMovie.Measure

/-- How many places a measure has. -/
def places : Nat := 2

def inUnits (factor : Float) : List String → Float → String
  | [], value => Decimal.fixed places value
  | [unit], value => Decimal.fixed places value ++ " " ++ unit
  | unit :: larger :: units, value =>
    if value ≥ factor then inUnits factor (larger :: units) (value / factor)
    else Decimal.fixed places value ++ " " ++ unit

/-- A number of bytes. -/
def size (bytes : UInt64) : String := inUnits 1024 ["B", "kB", "MB", "GB"] bytes.toFloat

/-- A number of nanoseconds. -/
def duration (nanoseconds : UInt64) : String :=
  let seconds :=
    (nanoseconds / 1000000000).toFloat + (nanoseconds % 1000000000).toFloat / 1000000000
  inUnits 1000 ["µs", "ms", "s"] (seconds * 1000000)

end PackedMovie.Measure
