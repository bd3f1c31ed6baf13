/-!
# Where a movie comes from
-/
namespace PackedMovie

/-- Standard input, an address on the web, or a file. -/
inductive Input where
  | standard
  | address (url : String)
  | file (path : String)
  deriving DecidableEq, Repr

namespace Input

def ofText (text : String) : Input :=
  if text = "-" then .standard
  else if "http://".toList.isPrefixOf text.toList || "https://".toList.isPrefixOf text.toList then
    .address text
  else .file text

def text : Input → String
  | .standard => "-"
  | .address url => url
  | .file path => path

def label : Input → String
  | .standard => "stdin"
  | .address _ => "url"
  | .file _ => "file"

def isAddress : Input → Bool
  | .address _ => true
  | _ => false

end Input
end PackedMovie
