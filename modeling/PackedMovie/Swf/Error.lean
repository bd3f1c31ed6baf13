import PackedMovie.Abc.Error

/-!
# Errors of movie files
-/
namespace PackedMovie.Swf

inductive Error where
  | invalidSignature (a b c : UInt8)
  /-- A known scheme of compression that is not read here. -/
  | unsupportedCompression (name : String)
  | unexpectedEnd
  | decompression
  | abc (cause : Abc.Error)
  | download (address : String)
  | system (cause : SystemError)
  deriving DecidableEq, Repr

instance : EndOfBytes Error := ⟨.unexpectedEnd⟩

def Error.message : Error → String
  | .invalidSignature a b c => s!"Invalid signature: [{a.toNat}, {b.toNat}, {c.toNat}]"
  | .unsupportedCompression name => s!"Unsupported compression: {name}"
  | .unexpectedEnd => "Unexpected end of movie data"
  | .decompression => "Decompression failed"
  | .abc cause => s!"ABC error: {cause.message}"
  | .download address => s!"HTTP error: Failed to download {address}"
  | .system cause => s!"IO error: {cause.message}"

/-- The error that this one passes on, if any; its message is part of this one's. -/
def Error.source? : Error → Option String
  | .abc cause => some cause.message
  | .system cause => some cause.message
  | _ => none

abbrev Reader := PackedMovie.Reader Error

end PackedMovie.Swf
