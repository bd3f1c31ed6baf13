import PackedMovie.Text.Numeral

/-!
# JSON values and their text

A number is an integer when its literal has neither fraction nor exponent; every other number is kept
as its literal. There are two texts of a value: one without any blank, and one with a line for each
member, indented by two spaces for each level.
-/
namespace PackedMovie

inductive Json where
  | null
  | bool (b : Bool)
  | integer (n : Int)
  | decimal (literal : String)
  | string (text : String)
  | array (members : List Json)
  | object (fields : List (String × Json))

namespace Json

/-- Quotes, backslashes and controls are escaped, the frequent ones by a letter. -/
def escapeChar (c : Char) : String :=
  if c = '"' then "\\\""
  else if c = '\\' then "\\\\"
  else if c = '\x08' then "\\b"
  else if c = '\t' then "\\t"
  else if c = '\n' then "\\n"
  else if c = '\x0c' then "\\f"
  else if c = '\r' then "\\r"
  else if c < ' ' then "\\u" ++ Numeral.hex 4 c.toNat
  else c.toString

def quote (text : String) : String :=
  "\"" ++ String.join (text.toList.map escapeChar) ++ "\""

mutual

/-- The text without blanks. -/
def compact : Json → String
  | .null => "null"
  | .bool b => if b then "true" else "false"
  | .integer n => toString n
  | .decimal literal => literal
  | .string text => quote text
  | .array members => "[" ++ String.intercalate "," (compactMembers members) ++ "]"
  | .object fields => "\x7b" ++ String.intercalate "," (compactFields fields) ++ "\x7d"

def compactMembers : List Json → List String
  | [] => []
  | j :: rest => compact j :: compactMembers rest

def compactFields : List (String × Json) → List String
  | [] => []
  | (name, j) :: rest => (quote name ++ ":" ++ compact j) :: compactFields rest

end

/-- The start of a line at some depth. -/
def newline (depth : Nat) : String := "\n" ++ String.join (List.replicate depth "  ")

/-- Lines between two brackets, or just the brackets around nothing. -/
def bracketed (opening closing : String) (depth : Nat) (lines : List String) : String :=
  if lines.isEmpty then opening ++ closing
  else opening ++ newline (depth + 1)
    ++ String.intercalate ("," ++ newline (depth + 1)) lines ++ newline depth ++ closing

mutual

/-- The indented text of a value that stands at some depth. -/
def prettyAt (depth : Nat) : Json → String
  | .array members => bracketed "[" "]" depth (prettyMembers (depth + 1) members)
  | .object fields => bracketed "\x7b" "\x7d" depth (prettyFields (depth + 1) fields)
  | .null => compact .null
  | .bool b => compact (.bool b)
  | .integer n => compact (.integer n)
  | .decimal literal => compact (.decimal literal)
  | .string text => compact (.string text)

def prettyMembers (depth : Nat) : List Json → List String
  | [] => []
  | j :: rest => prettyAt depth j :: prettyMembers depth rest

def prettyFields (depth : Nat) : List (String × Json) → List String
  | [] => []
  | (name, j) :: rest => (quote name ++ ": " ++ prettyAt depth j) :: prettyFields depth rest

end

def pretty (j : Json) : String := prettyAt 0 j

/-- The value of a field; of two with one name the later one counts. -/
def field? (name : String) : List (String × Json) → Option Json
  | [] => none
  | (n, j) :: rest => (field? name rest).or (if n = name then some j else none)

end Json
end PackedMovie
