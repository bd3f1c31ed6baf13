import PackedMovie.Json.Value

/-!
# How an order is resolved
-/
namespace PackedMovie.Resource

structure Options where
  /-- The class that holds the accessors, the keymap and the constructor. -/
  classIndex : Nat
  /-- The literal in front of each name. -/
  target : String
  /-- Refuse a missing keymap, and calls of what is no accessor. -/
  strict : Bool
  deriving DecidableEq, Repr

namespace Options

/-- The options unless said otherwise. -/
def standard : Options where
  classIndex := 0
  target := "writeBytes"
  strict := false

def indexOfJson? : Json → Option Nat
  | .integer n => if 0 ≤ n ∧ n.toNat < Nat.pow 2 64 then some n.toNat else none
  | _ => none

def textOfJson? : Json → Option String
  | .string text => some text
  | _ => none

def boolOfJson? : Json → Option Bool
  | .bool b => some b
  | _ => none

/-- A value that may be absent, and then is the standard one. -/
def orStandard {α : Type} (read : Json → Option α) (standardValue : α) (j : Option Json) :
    Option α :=
  match j with
  | some j => read j
  | none => some standardValue

def ofValues? (classIndex target strict : Option Json) : Option Options := do
  let classIndex ← orStandard indexOfJson? standard.classIndex classIndex
  let target ← orStandard textOfJson? standard.target target
  let strict ← orStandard boolOfJson? standard.strict strict
  pure { classIndex, target, strict }

/-- Options are an object whose other fields do not matter, or an array of the values in order. -/
def ofJson? : Json → Option Options
  | .object fields => ofValues? (Json.field? "class_index" fields) (Json.field? "target" fields)
      (Json.field? "strict" fields)
  | .array values =>
    if values.length ≤ 3 then ofValues? values[0]? values[1]? values[2]? else none
  | _ => none

end Options
end PackedMovie.Resource
