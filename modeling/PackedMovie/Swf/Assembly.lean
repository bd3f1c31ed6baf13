import PackedMovie.Swf.Movie

/-!
# Putting a movie together

Tags are kept in the order in which they are added. Symbols are gathered and written in one tag behind all
others, by ascending character.
-/
namespace PackedMovie.Swf

structure Assembly where
  compression : Compression
  version : UInt8
  tags : List RawTag
  symbols : Dictionary UInt16 String

namespace Assembly

/-- An uncompressed movie of one frame. -/
def empty : Assembly where
  compression := .none
  version := 32
  tags := []
  symbols := .empty

inductive Step where
  | compression (scheme : Compression)
  | version (number : UInt8)
  | abc (name : String) (program : Abc.Program)
  | binaryData (characterId : UInt16) (data : Bytes)
  | symbol (characterId : UInt16) (name : String)
  | tag (code : UInt16) (body : Bytes)

def addTag (code : UInt16) (body : Bytes) (a : Assembly) : Assembly :=
  { a with tags := a.tags ++ [⟨code, body⟩] }

/-- The flags of a block that is added. -/
def abcFlags : Bytes := LittleEndian.encode 4 1

def reserved : Bytes := [0, 0, 0, 0]

def run (a : Assembly) : Step → Assembly
  | .compression scheme => { a with compression := scheme }
  | .version number => { a with version := number }
  | .abc name program => a.addTag abcCode (abcFlags ++ writeCstring name ++ program.write)
  | .binaryData id data =>
    a.addTag binaryDataCode (LittleEndian.encode 2 id.toNat ++ reserved ++ data)
  | .symbol id name => { a with symbols := a.symbols.insert id name }
  | .tag code body => a.addTag code body

def ofSteps (steps : List Step) : Assembly := steps.foldl run empty

def writeLink (link : UInt16 × String) : Bytes :=
  LittleEndian.encode 2 link.1.toNat ++ writeCstring link.2

/-- The tag of all symbols, if there are any. -/
def symbolTags (a : Assembly) : List RawTag :=
  if a.symbols.isEmpty then []
  else [⟨symbolClassCode,
    LittleEndian.encode 2 a.symbols.size ++ a.symbols.entries.flatMap writeLink⟩]

/-- All tags: those added, the symbols, one frame, and the end. -/
def allTags (a : Assembly) : List RawTag :=
  a.tags ++ a.symbolTags ++ [⟨showFrameCode, []⟩, ⟨endCode, []⟩]

def header (a : Assembly) : Header where
  compression := a.compression
  version := a.version
  fileLength := 0
  frameSize := .ofPixels 800 600
  frameRate := 30 * 256
  frameCount := 1

def write [Codec] (a : Assembly) : Except Error Bytes :=
  a.header.write (a.allTags.flatMap RawTag.write)

end Assembly
end PackedMovie.Swf
