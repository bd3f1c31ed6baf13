import PackedMovie.Bytes.LittleEndian
import PackedMovie.Swf.Error

/-!
# Compression of a movie's body

The first byte of the signature says how the body is compressed. The one compression that is read
and written is the work of a codec; how a codec compresses does not matter, as long as it undoes
it.
-/
namespace PackedMovie.Swf

/-- What compresses bytes and gets them back. It may inflate more than it deflates. -/
class Codec where
  deflate : Bytes → Bytes
  /-- The bytes in a compressed stream, if it is well formed and complete. -/
  inflate : Bytes → Option Bytes
  inflate_deflate (bytes : Bytes) : inflate (deflate bytes) = some bytes

inductive Compression where
  | none
  | zlib
  | lzma
  deriving DecidableEq, Repr

namespace Compression

def label : Compression → String
  | .none => "none"
  | .zlib => "zlib"
  | .lzma => "lzma"

/-- The letters FWS, CWS or ZWS. -/
def signature : Compression → UInt8 × UInt8 × UInt8
  | .none => (0x46, 0x57, 0x53)
  | .zlib => (0x43, 0x57, 0x53)
  | .lzma => (0x5A, 0x57, 0x53)

def ofSignature (a b c : UInt8) : Except Error Compression :=
  if (a, b, c) = signature .none then .ok .none
  else if (a, b, c) = signature .zlib then .ok .zlib
  else if (a, b, c) = signature .lzma then .ok .lzma
  else .error (.invalidSignature a b c)

def signatureBytes (s : Compression) : Bytes :=
  let (a, b, c) := s.signature
  [a, b, c]

theorem ofSignature_signature (s : Compression) :
    ofSignature s.signature.1 s.signature.2.1 s.signature.2.2 = .ok s := by
  cases s <;> rfl

end Compression
end PackedMovie.Swf
