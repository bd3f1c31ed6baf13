import PackedMovie.Abc.Error
import PackedMovie.Text.Utf8

/-!
# What keeps resources from being found or written
-/
namespace PackedMovie.Resource

inductive Error where
  /-- No block of bytecode belongs to the first frame. -/
  | missingFrame
  | missingKeymap
  | keymapIndex (index : UInt8) (length : Nat)
  /-- A call in a name that no accessor answers. -/
  | unmappedAccessor (name address : UInt32)
  | stringIndex (index : UInt32) (length : Nat)
  | invalidName (cause : Utf8.Malformed)
  | abc (cause : Abc.Error)
  | system (cause : SystemError)
  deriving DecidableEq, Repr

def Error.message : Error → String
  | .missingFrame => "This movie file does not have a frame1"
  | .missingKeymap => "Cannot resolve methods: keymap was not found"
  | .keymapIndex index length => s!"Index error in keymap: {index.toNat} (len {length})"
  | .unmappedAccessor name address =>
    s!"Unmapped accessor MultinameIndex({name.toNat}) at address {address.toNat}"
  | .stringIndex index length => s!"String index {index.toNat} out of range (len {length})"
  | .invalidName cause => s!"Invalid resource name: {cause.message}"
  | .abc cause => s!"ABC error: {cause.message}"
  | .system cause => s!"IO error: {cause.message}"

/-- The error that this one passes on, if any; its message is part of this one's. -/
def Error.source? : Error → Option String
  | .invalidName cause => some cause.message
  | .abc cause => some cause.message
  | .system cause => some cause.message
  | _ => none

/-- An outcome of bytecode as an outcome of resources. -/
def ofAbc {α : Type} : Except Abc.Error α → Except Error α
  | .ok a => .ok a
  | .error e => .error (.abc e)

end PackedMovie.Resource
