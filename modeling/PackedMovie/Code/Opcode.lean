/-!
# Opcodes

The instruction set: for each opcode byte its mnemonic and the layout of its operands. The opcodes
that chains, keymaps and accessors are made of have names of their own; every other one is known by
its byte.
-/
namespace PackedMovie.Code

inductive Opcode where
  | getLocal0
  | callProperty
  | add
  | pushByte
  | pushString
  | constructSuper
  | other (byte : UInt8)
  deriving DecidableEq, Repr

namespace Opcode

def ofByte (byte : UInt8) : Opcode :=
  if byte = 0xD0 then .getLocal0
  else if byte = 0x46 then .callProperty
  else if byte = 0xA0 then .add
  else if byte = 0x24 then .pushByte
  else if byte = 0x2C then .pushString
  else if byte = 0x49 then .constructSuper
  else .other byte

def toByte : Opcode → UInt8
  | .getLocal0 => 0xD0
  | .callProperty => 0x46
  | .add => 0xA0
  | .pushByte => 0x24
  | .pushString => 0x2C
  | .constructSuper => 0x49
  | .other byte => byte

@[simp] theorem toByte_ofByte (byte : UInt8) : (ofByte byte).toByte = byte := by
  unfold ofByte
  repeat' split
  all_goals simp_all [toByte]

end Opcode

/-- How an operand is written. -/
inductive OperandKind where
  | u8
  | u30
  | s24
  deriving DecidableEq, Repr

inductive Layout where
  | fixed (operands : List OperandKind)
  /-- A default offset, a count, then one offset more than the count says. -/
  | lookupSwitch
  deriving DecidableEq, Repr

namespace Layout

def plain : Layout := .fixed []
def oneByte : Layout := .fixed [.u8]
def oneIndex : Layout := .fixed [.u30]
def twoIndices : Layout := .fixed [.u30, .u30]
def branch : Layout := .fixed [.s24]
def debugInfo : Layout := .fixed [.u8, .u30, .u8, .u30]

end Layout

open Layout in
/-- Every opcode with its mnemonic and its layout, by ascending byte. -/
def instructionSet : List (UInt8 × String × Layout) := [
  (0x01, "bkpt", plain), (0x02, "nop", plain), (0x03, "throw", plain),
  (0x04, "getsuper", oneIndex), (0x05, "setsuper", oneIndex), (0x06, "dxns", oneIndex),
  (0x07, "dxnslate", plain), (0x08, "kill", oneIndex), (0x09, "label", plain),
  (0x0C, "ifnlt", branch), (0x0D, "ifnle", branch), (0x0E, "ifngt", branch),
  (0x0F, "ifnge", branch), (0x10, "jump", branch), (0x11, "iftrue", branch),
  (0x12, "iffalse", branch), (0x13, "ifeq", branch), (0x14, "ifne", branch),
  (0x15, "iflt", branch), (0x16, "ifle", branch), (0x17, "ifgt", branch), (0x18, "ifge", branch),
  (0x19, "ifstricteq", branch), (0x1A, "ifstrictne", branch),
  (0x1B, "lookupswitch", .lookupSwitch), (0x1C, "pushwith", plain), (0x1D, "popscope", plain),
  (0x1E, "nextname", plain), (0x1F, "hasnext", plain), (0x20, "pushnull", plain),
  (0x21, "pushundefined", plain), (0x23, "nextvalue", plain), (0x24, "pushbyte", oneByte),
  (0x25, "pushshort", oneIndex), (0x26, "pushtrue", plain), (0x27, "pushfalse", plain),
  (0x28, "pushnan", plain), (0x29, "pop", plain), (0x2A, "dup", plain), (0x2B, "swap", plain),
  (0x2C, "pushstring", oneIndex), (0x2D, "pushint", oneIndex), (0x2E, "pushuint", oneIndex),
  (0x2F, "pushdouble", oneIndex), (0x30, "pushscope", plain), (0x31, "pushnamespace", oneIndex),
  (0x32, "hasnext2", twoIndices), (0x35, "li8", plain), (0x36, "li16", plain),
  (0x37, "li32", plain), (0x38, "lf32", plain), (0x39, "lf64", plain), (0x3A, "si8", plain),
  (0x3B, "si16", plain), (0x3C, "si32", plain), (0x3D, "sf32", plain), (0x3E, "sf64", plain),
  (0x40, "newfunction", oneIndex), (0x41, "call", oneIndex), (0x42, "construct", oneIndex),
  (0x43, "callmethod", twoIndices), (0x44, "callstatic", twoIndices),
  (0x45, "callsuper", twoIndices), (0x46, "callproperty", twoIndices),
  (0x47, "returnvoid", plain), (0x48, "returnvalue", plain), (0x49, "constructsuper", oneIndex),
  (0x4A, "constructprop", twoIndices), (0x4C, "callproplex", twoIndices),
  (0x4E, "callsupervoid", twoIndices), (0x4F, "callpropvoid", twoIndices), (0x50, "sxi1", plain),
  (0x51, "sxi8", plain), (0x52, "sxi16", plain), (0x53, "applytype", oneIndex),
  (0x55, "newobject", oneIndex), (0x56, "newarray", oneIndex), (0x57, "newactivation", plain),
  (0x58, "newclass", oneIndex), (0x59, "getdescendants", oneIndex), (0x5A, "newcatch", oneIndex),
  (0x5D, "findpropstrict", oneIndex), (0x5E, "findproperty", oneIndex),
  (0x5F, "finddef", oneIndex), (0x60, "getlex", oneIndex), (0x61, "setproperty", oneIndex),
  (0x62, "getlocal", oneIndex), (0x63, "setlocal", oneIndex), (0x64, "getglobalscope", plain),
  (0x65, "getscopeobject", oneByte), (0x66, "getproperty", oneIndex),
  (0x67, "getouterscope", oneIndex), (0x68, "initproperty", oneIndex),
  (0x6A, "deleteproperty", oneIndex), (0x6C, "getslot", oneIndex), (0x6D, "setslot", oneIndex),
  (0x6E, "getglobalslot", oneIndex), (0x6F, "setglobalslot", oneIndex),
  (0x70, "convert_s", plain), (0x71, "esc_xelem", plain), (0x72, "esc_xattr", plain),
  (0x73, "convert_i", plain), (0x74, "convert_u", plain), (0x75, "convert_d", plain),
  (0x76, "convert_b", plain), (0x77, "convert_o", plain), (0x78, "checkfilter", plain),
  (0x80, "coerce", oneIndex), (0x81, "coerce_b", plain), (0x82, "coerce_a", plain),
  (0x83, "coerce_i", plain), (0x84, "coerce_d", plain), (0x85, "coerce_s", plain),
  (0x86, "astype", oneIndex), (0x87, "astypelate", plain), (0x88, "coerce_u", plain),
  (0x89, "coerce_o", plain), (0x90, "negate", plain), (0x91, "increment", plain),
  (0x92, "inclocal", oneIndex), (0x93, "decrement", plain), (0x94, "declocal", oneIndex),
  (0x95, "typeof", plain), (0x96, "not", plain), (0x97, "bitnot", plain), (0xA0, "add", plain),
  (0xA1, "subtract", plain), (0xA2, "multiply", plain), (0xA3, "divide", plain),
  (0xA4, "modulo", plain), (0xA5, "lshift", plain), (0xA6, "rshift", plain),
  (0xA7, "urshift", plain), (0xA8, "bitand", plain), (0xA9, "bitor", plain),
  (0xAA, "bitxor", plain), (0xAB, "equals", plain), (0xAC, "strictequals", plain),
  (0xAD, "lessthan", plain), (0xAE, "lessequals", plain), (0xAF, "greaterthan", plain),
  (0xB0, "greaterequals", plain), (0xB1, "instanceof", plain), (0xB2, "istype", oneIndex),
  (0xB3, "istypelate", plain), (0xB4, "in", plain), (0xC0, "increment_i", plain),
  (0xC1, "decrement_i", plain), (0xC2, "inclocal_i", oneIndex), (0xC3, "declocal_i", oneIndex),
  (0xC4, "negate_i", plain), (0xC5, "add_i", plain), (0xC6, "subtract_i", plain),
  (0xC7, "multiply_i", plain), (0xD0, "getlocal0", plain), (0xD1, "getlocal1", plain),
  (0xD2, "getlocal2", plain), (0xD3, "getlocal3", plain), (0xD4, "setlocal0", plain),
  (0xD5, "setlocal1", plain), (0xD6, "setlocal2", plain), (0xD7, "setlocal3", plain),
  (0xEF, "debug", debugInfo), (0xF0, "debugline", oneIndex), (0xF1, "debugfile", oneIndex),
  (0xF2, "bkptline", oneIndex), (0xF3, "timestamp", plain)]

/-- The mnemonic and layout of an opcode byte. -/
def describe? (byte : UInt8) : Option (String × Layout) := instructionSet.lookup byte

def Opcode.name (op : Opcode) : String :=
  match describe? op.toByte with
  | some (name, _) => name
  | none => "unknown"

end PackedMovie.Code
