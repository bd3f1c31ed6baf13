import PackedMovie.Abc.Methods
import PackedMovie.Dictionary
import PackedMovie.Resource.Keymap

/-!
# Accessors

Each byte of the keymap that a name needs is returned by a method of its own, the byte's accessor. The
accessors of a class are a dictionary from method names to bytes.
-/
namespace PackedMovie.Resource

open PackedMovie.Abc (Method Trait)

/-- From the name of an accessor to the byte that it returns. -/
abbrev Accessors := Dictionary UInt32 UInt8

namespace Accessors

/-- An accessor takes its arguments as a list and uses two stack slots. -/
def isAccessor (m : Method) : Bool := m.needRest && m.maxStack == 2

/-- The method a trait makes an accessor, if it does: one of the table and of the right shape. -/
def candidate? (methods : List Method) (t : Trait) : Option Method := do
  let index ← t.method?
  let m ← methods[index.toNat]?
  if isAccessor m then some m else none

/-- The byte an accessor picks; none if it pushes nothing. -/
def pickedByte? (keymap : Keymap) (m : Method) : Except Error (Option UInt8) := do
  let is ← ofAbc m.instructions
  match Keymap.firstWith? .pushByte is with
  | none => pure none
  | some push => some <$> keymap.byteAt push.firstOperand.toUInt8

/-- Enters the accessors among some traits, in order. -/
def collect (methods : List Method) (keymap : Keymap) :
    Accessors → List Trait → Except Error Accessors
  | found, [] => .ok found
  | found, t :: rest =>
    match candidate? methods t with
    | none => collect methods keymap found rest
    | some m =>
      match pickedByte? keymap m with
      | .error e => .error e
      | .ok none => collect methods keymap found rest
      | .ok (some byte) => collect methods keymap (found.insert t.name byte) rest

/-- The accessors among a class's traits. Without a keymap there are none, whatever the methods are. -/
def build (traits : List Trait) (methods : List Method) (keymap : Keymap) :
    Except Error Accessors :=
  if keymap.isEmpty then .ok .empty else collect methods keymap .empty traits

end Accessors
end PackedMovie.Resource
