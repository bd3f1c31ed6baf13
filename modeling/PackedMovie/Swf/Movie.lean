import PackedMovie.Dictionary
import PackedMovie.Swf.Header
import PackedMovie.Swf.Tag

/-!
# Movies

A movie is what its header and its tags say. Tags are read up to the one that ends them, or to the end of
the file; of two symbols for one character the later one counts.
-/
namespace PackedMovie.Swf

structure Movie where
  header : Header
  abcBlocks : List AbcBlock
  symbols : Dictionary UInt16 String
  binaryData : List BinaryData
  tagCount : Nat
  deriving DecidableEq

namespace Tag

def block? : Tag → Option AbcBlock
  | .abc block => some block
  | _ => none

def binary? : Tag → Option BinaryData
  | .binary data => some data
  | _ => none

def links : Tag → List (UInt16 × String)
  | .symbols links => links
  | _ => []

/-- All tags up to the one that ends them, which is the last of the list. -/
def readAll (c : Cursor) : Except Error (List Tag) :=
  if c.isAtEnd then .ok []
  else
    match _h : Tag.read c with
    | .error e _ => .error e
    | .ok tag d => if tag = .endOfTags then .ok [tag] else (tag :: ·) <$> readAll d
termination_by c.rest.length
decreasing_by exact Tag.read_shortens _h

end Tag

namespace Movie

def ofTags (header : Header) (tags : List Tag) : Movie where
  header := header
  abcBlocks := tags.filterMap Tag.block?
  symbols := .ofList (tags.flatMap Tag.links)
  binaryData := tags.filterMap Tag.binary?
  tagCount := tags.length

def read [Codec] (file : Bytes) : Except Error Movie := do
  let (header, tags) ← Header.read file
  ofTags header <$> Tag.readAll (.ofBytes tags)

/-- The name of the block that belongs to the first frame. -/
def firstFrameName : String := "frame1"

def isFirstFrame (block : AbcBlock) : Bool := block.name == firstFrameName

def firstFrame? (m : Movie) : Option AbcBlock := m.abcBlocks.find? isFirstFrame

/-- The position of the first frame's block. -/
def firstFrameIndex? (m : Movie) : Option Nat := m.abcBlocks.findIdx? isFirstFrame

/-- The binary resources that have a symbol, with it, in file order. -/
def namedBinaries (m : Movie) : List (String × Bytes) :=
  m.binaryData.filterMap fun binary =>
    (m.symbols.get? binary.characterId).map fun name => (name, binary.data)

end Movie
end PackedMovie.Swf
