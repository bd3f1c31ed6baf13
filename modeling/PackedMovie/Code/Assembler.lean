import PackedMovie.Abc.Field
import PackedMovie.Code.Opcode

/-!
# Assembling method bodies

A directive stands for one instruction, or for a bare opcode byte.
-/
namespace PackedMovie.Code

inductive Directive where
  | op (byte : UInt8)
  | getLocal0
  | callProperty (index argCount : UInt32)
  | add
  | pushByte (value : UInt8)
  | pushString (index : UInt32)
  | constructSuper (argCount : UInt32)
  | jump (offset : Int32)
  | pushScope
  | pop
  | returnValue
  | returnVoid
  deriving DecidableEq, Repr

/-- The opcode byte a directive begins with. -/
def Directive.opcodeByte : Directive → UInt8
  | .op byte => byte
  | .getLocal0 => Opcode.getLocal0.toByte
  | .callProperty .. => Opcode.callProperty.toByte
  | .add => Opcode.add.toByte
  | .pushByte _ => Opcode.pushByte.toByte
  | .pushString _ => Opcode.pushString.toByte
  | .constructSuper _ => Opcode.constructSuper.toByte
  | .jump _ => 0x10
  | .pushScope => 0x30
  | .pop => 0x29
  | .returnValue => 0x48
  | .returnVoid => 0x47

def Directive.operandBytes : Directive → Bytes
  | .callProperty index argCount => Abc.Write.u30 index ++ Abc.Write.u30 argCount
  | .pushByte value => Abc.Write.u8 value
  | .pushString index => Abc.Write.u30 index
  | .constructSuper argCount => Abc.Write.u30 argCount
  | .jump offset => Abc.Write.s24 offset
  | _ => []

def Directive.bytes (d : Directive) : Bytes := d.opcodeByte :: d.operandBytes

def assemble (directives : List Directive) : Bytes := directives.flatMap Directive.bytes

end PackedMovie.Code
