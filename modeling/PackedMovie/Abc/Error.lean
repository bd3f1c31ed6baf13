import PackedMovie.Bytes.Reader
import PackedMovie.Storage.SystemError
import PackedMovie.Text.Numeral

/-!
# Errors of the ABC format
-/
namespace PackedMovie.Abc

/-- The tables that entries are looked up in by index. -/
inductive TableName where
  | classes
  | methods
  | strings
  | multinames
  deriving DecidableEq, Repr

def TableName.label : TableName → String
  | .classes => "class"
  | .methods => "method"
  | .strings => "string"
  | .multinames => "multiname"

inductive Error where
  | invalidOpcode (opcode : UInt8) (offset : Nat)
  | invalidTraitKind (kind : UInt8)
  | invalidMultinameKind (kind : UInt8)
  /-- An integer that does not end within five bytes of `offset`. -/
  | invalidInteger (offset : Nat)
  | unexpectedEnd
  | indexOutOfRange (table : TableName) (index : UInt32) (length : Nat)
  | system (cause : SystemError)
  deriving DecidableEq, Repr

instance : EndOfBytes Error := ⟨.unexpectedEnd⟩

def Error.message : Error → String
  | .invalidOpcode opcode offset =>
    "Invalid opcode 0x" ++ Numeral.hex 2 opcode.toNat ++ s!" at offset {offset}"
  | .invalidTraitKind kind => s!"Invalid trait kind: {kind.toNat}"
  | .invalidMultinameKind kind => "Invalid multiname kind: 0x" ++ Numeral.hex 2 kind.toNat
  | .invalidInteger offset => s!"Invalid variable-length integer at offset {offset}"
  | .unexpectedEnd => "Unexpected end of bytecode"
  | .indexOutOfRange table index length =>
    s!"{table.label} index {index.toNat} out of range (len {length})"
  | .system cause => "IO error: " ++ cause.message

end PackedMovie.Abc
