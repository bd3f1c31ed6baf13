import PackedMovie.Code.Instruction
import PackedMovie.Resource.Error

/-!
# Keymaps

The alphabet in which resource names are hidden: a string of the packed class, whose bytes are picked by
their positions.
-/
namespace PackedMovie.Resource

open PackedMovie.Code (Instruction Opcode)

structure Keymap where
  text : String
  deriving DecidableEq, Repr

namespace Keymap

def empty : Keymap := ⟨""⟩

def bytes (k : Keymap) : Bytes := Utf8.encode k.text

/-- The length in bytes. -/
def size (k : Keymap) : Nat := k.bytes.length

def isEmpty (k : Keymap) : Bool := k.text.isEmpty

def byteAt (k : Keymap) (index : UInt8) : Except Error UInt8 :=
  match k.bytes[index.toNat]? with
  | some byte => .ok byte
  | none => .error (.keymapIndex index k.size)

/-- The first instruction with an opcode. -/
def firstWith? (op : Opcode) (is : List Instruction) : Option Instruction :=
  is.find? fun i => i.opcode == op

/-- The first string that is pushed; without one the keymap is empty. -/
def extract (is : List Instruction) (strings : List String) : Except Error Keymap :=
  match firstWith? .pushString is with
  | none => .ok empty
  | some push =>
    match strings[push.firstOperand.toNat]? with
    | some text => .ok ⟨text⟩
    | none => .error (.stringIndex push.firstOperand strings.length)

end Keymap
end PackedMovie.Resource
