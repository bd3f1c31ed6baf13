import PackedMovie.Abc.Program
import PackedMovie.Swf.Error

/-!
# Tags

A tag is a code and a body. The length of a short body stands beside the code; a longer one has a word of
its own. Five codes are understood, and of the rest only the length is kept.

Main statement: reading a tag leaves less to read (`Tag.read_shortens`).
-/
namespace PackedMovie.Swf

open PackedMovie.Reader (u16 u32)

/-- A tag as it stands in the file. -/
structure RawTag where
  code : UInt16
  body : Bytes
  deriving DecidableEq, Repr

/-- A block of bytecode; `size` is the length of its written form. -/
structure AbcBlock where
  flags : UInt32
  name : String
  size : Nat
  program : Abc.Program
  deriving DecidableEq, Repr

structure BinaryData where
  characterId : UInt16
  data : Bytes
  deriving DecidableEq, Repr

inductive Tag where
  | endOfTags
  | abc (block : AbcBlock)
  | symbols (links : List (UInt16 × String))
  | binary (data : BinaryData)
  | other (code : UInt16) (length : Nat)
  deriving DecidableEq, Repr

/-! ### Codes -/

def endCode : UInt16 := 0
def showFrameCode : UInt16 := 1
/-- Bytecode without flags and name. -/
def plainAbcCode : UInt16 := 72
def symbolClassCode : UInt16 := 76
def abcCode : UInt16 := 82
def binaryDataCode : UInt16 := 87

/-! ### Framing -/

/-- The short length that announces a long one. -/
def longLength : UInt16 := 0x3F

namespace RawTag

/-- The length of a body, by the word in front of it or by the next one. -/
def readLength (header : UInt16) : Reader Nat :=
  if header &&& longLength = longLength then UInt32.toNat <$> u32
  else pure (header &&& longLength).toNat

/-- The rest of a tag, behind its first word. -/
def readAfter (header : UInt16) : Reader RawTag := do
  let length ← readLength header
  let body ← PackedMovie.Reader.bytes length
  pure ⟨header >>> 6, body⟩

def read : Reader RawTag := do
  let header ← u16
  readAfter header

/-- A code has ten bits; higher ones are lost. -/
def write (t : RawTag) : Bytes :=
  if t.body.length < longLength.toNat then
    LittleEndian.encode 2 ((t.code <<< 6) ||| UInt16.ofNat t.body.length).toNat ++ t.body
  else
    LittleEndian.encode 2 ((t.code <<< 6) ||| longLength).toNat
      ++ LittleEndian.encode 4 t.body.length ++ t.body

end RawTag

/-! ### Bodies -/

/-- A text up to its NUL; nothing is read if there is none. -/
def cstring : Reader String := fun c =>
  let text := c.rest.takeWhile (· != 0)
  match c.rest.drop text.length with
  | _ :: rest => .ok (Utf8.decodeLossy text) ⟨c.offset + text.length + 1, rest⟩
  | [] => .error .unexpectedEnd c

def writeCstring (text : String) : Bytes := Utf8.encode text ++ [0]

def link : Reader (UInt16 × String) := do
  let id ← u16
  let name ← cstring
  pure (id, name)

/-- The block that the rest of a body is the bytecode of. -/
def blockOf (flags : UInt32) (name : String) : Reader Tag := do
  let c ← get
  match Abc.Program.parse c.rest with
  | .ok program => pure (.abc { flags, name, size := c.rest.length, program })
  | .error e => throw (.abc e)

namespace Tag

def readBody (code : UInt16) : Reader Tag := do
  if code = endCode then pure .endOfTags
  else if code = abcCode then
    let flags ← u32
    let name ← cstring
    blockOf flags name
  else if code = plainAbcCode then blockOf 0 ""
  else if code = symbolClassCode then
    let count ← u16
    let links ← PackedMovie.Reader.times count.toNat link
    pure (.symbols links)
  else if code = binaryDataCode then
    let characterId ← u16
    let _ ← u32
    let c ← get
    pure (.binary { characterId, data := c.rest })
  else
    let c ← get
    pure (.other code c.rest.length)

/-- What a tag says depends on nothing but its code and its body. -/
def ofRaw (t : RawTag) : Except Error Tag := PackedMovie.Reader.runOn (readBody t.code) t.body

def read : Reader Tag := do
  let raw ← RawTag.read
  match ofRaw raw with
  | .ok tag => pure tag
  | .error e => throw e

end Tag

/-! ### Progress -/

namespace RawTag

open PackedMovie.Reader (bind_eq_ok_iff map_eq_ok_iff bytes_eq_ok_iff Forward)

theorem u16_length {c d : Cursor} {n : UInt16} (h : (u16 : Reader UInt16) c = .ok n d) :
    c.rest.length = d.rest.length + 2 := by
  obtain ⟨_, h, _⟩ := map_eq_ok_iff.1 h
  obtain ⟨_, h, _⟩ := map_eq_ok_iff.1 h
  obtain ⟨hlen, hrest, _⟩ := bytes_eq_ok_iff.1 h
  rw [hrest, List.length_append, hlen, Nat.add_comm]

theorem forward_readAfter (header : UInt16) : Forward (readAfter header) := by
  refine Forward.bind ?_ fun _ => (Forward.bytes _).bind fun _ => Forward.pure _
  unfold readLength
  split
  · exact Forward.u32.map _
  · exact Forward.pure _

theorem read_shortens {c d : Cursor} {t : RawTag} (h : read c = .ok t d) :
    d.rest.length < c.rest.length := by
  obtain ⟨header, e, hheader, h⟩ := bind_eq_ok_iff.1 h
  have hlen := u16_length hheader
  have := (forward_readAfter header).length_le h
  omega

end RawTag

theorem Tag.read_shortens {c d : Cursor} {t : Tag} (h : Tag.read c = .ok t d) :
    d.rest.length < c.rest.length := by
  obtain ⟨raw, e, hraw, h⟩ := PackedMovie.Reader.bind_eq_ok_iff.1 h
  cases htag : Tag.ofRaw raw with
  | ok tag =>
    rw [htag] at h
    cases h
    exact RawTag.read_shortens hraw
  | error cause =>
    rw [htag] at h
    cases h

end PackedMovie.Swf
