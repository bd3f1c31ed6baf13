import PackedMovie.Swf.Compression
import PackedMovie.Swf.Rectangle

/-!
# The header of a movie

A signature, the player's version and the declared length stand in front of the body, which may be
compressed. The body begins with the frame's size and rate; the rest of it is tags. The declared length is
only reported.
-/
namespace PackedMovie.Swf

open PackedMovie.Reader (u8 u16 u32)

/-- The frame rate is in 256ths of a frame per second. -/
structure Header where
  compression : Compression
  version : UInt8
  fileLength : UInt32
  frameSize : Rectangle
  frameRate : UInt16
  frameCount : UInt16
  deriving DecidableEq, Repr

namespace Header

/-- The frame rate in frames per second, as the bits of a binary32 number; it has an exact one. -/
def framesPerSecondBits (h : Header) : UInt32 :=
  let rate := h.frameRate.toNat
  if rate = 0 then 0
  else
    let exponent := Nat.log2 rate
    let fraction := (rate - Nat.pow 2 exponent) * Nat.pow 2 (23 - exponent)
    UInt32.ofNat ((exponent + 127 - 8) * Nat.pow 2 23 + fraction)

/-- What stands in front of the body. -/
structure Preamble where
  compression : Compression
  version : UInt8
  fileLength : UInt32
  deriving DecidableEq, Repr

def readPreamble : Reader Preamble := do
  let a ← PackedMovie.Reader.bytes 3
  match a with
  | [a, b, c] =>
    match Compression.ofSignature a b c with
    | .error e => throw e
    | .ok compression =>
      let version ← u8
      let fileLength ← u32
      pure { compression, version, fileLength }
  | _ => throw .unexpectedEnd

/-- The body as it is before compression. -/
def expand [Codec] (compression : Compression) (body : Bytes) : Except Error Bytes :=
  match compression with
  | .none => .ok body
  | .zlib =>
    match Codec.inflate body with
    | some bytes => .ok bytes
    | none => .error .decompression
  | .lzma => .error (.unsupportedCompression Compression.lzma.label)

def compress [Codec] (compression : Compression) (body : Bytes) : Except Error Bytes :=
  match compression with
  | .none => .ok body
  | .zlib => .ok (Codec.deflate body)
  | .lzma => .error (.unsupportedCompression Compression.lzma.label)

/-- The frame's size, rate and count, in front of the tags. -/
def readFrames : Reader (Rectangle × UInt16 × UInt16) := do
  let size ← Rectangle.read
  let rate ← u16
  let count ← u16
  pure (size, rate, count)

/-- Splits a file into its header and its tags. -/
def read [Codec] (file : Bytes) : Except Error (Header × Bytes) :=
  match readPreamble (.ofBytes file) with
  | .error e _ => .error e
  | .ok p c =>
    match expand p.compression c.rest with
    | .error e => .error e
    | .ok body =>
      match readFrames (.ofBytes body) with
      | .error e _ => .error e
      | .ok (frameSize, frameRate, frameCount) d =>
        .ok ({ compression := p.compression, version := p.version, fileLength := p.fileLength,
               frameSize, frameRate, frameCount }, d.rest)

def body (h : Header) (tags : Bytes) : Bytes :=
  h.frameSize.write ++ LittleEndian.encode 2 h.frameRate.toNat
    ++ LittleEndian.encode 2 h.frameCount.toNat ++ tags

/-- A whole file. The length is that of the file before compression, whatever the header declares. -/
def write [Codec] (h : Header) (tags : Bytes) : Except Error Bytes :=
  let body := h.body tags
  match compress h.compression body with
  | .error e => .error e
  | .ok compressed => .ok (h.compression.signatureBytes ++ h.version ::
      LittleEndian.encode 4 (body.length + 8) ++ compressed)

end Header
end PackedMovie.Swf
