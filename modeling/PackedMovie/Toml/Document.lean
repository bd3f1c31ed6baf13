import PackedMovie.Toml.Lexical
import PackedMovie.Toml.Moment
import PackedMovie.Toml.Number

/-!
# TOML documents

A document is a run of pairs, for the table at its root, and then sections, each a header and its pairs. The
grammar and the rules on tables are those of TOML 1.0, with a bound on how deep keys and values are nested.
-/
namespace PackedMovie.Toml

/-! ### Values -/

/-- Reads one thing from the text that is left. -/
abbrev Scan (α : Type) := List Char → Option (α × List Char)

def scalar? (cs : List Char) : Option (Item × List Char) :=
  match cs with
  | 't' :: 'r' :: 'u' :: 'e' :: rest => some (.boolean true, rest)
  | 'f' :: 'a' :: 'l' :: 's' :: 'e' :: rest => some (.boolean false, rest)
  | '"' :: _ => (text? cs).map fun (text, rest) => (.text text, rest)
  | '\x27' :: _ => (text? cs).map fun (text, rest) => (.text text, rest)
  | _ =>
    match moment? cs with
    | some rest => some (.moment (String.ofList (cs.take (cs.length - rest.length))), rest)
    | none => number? cs

/-- At most so many items of an array, behind its opening bracket or a comma. -/
def items (value : Scan Item) : Nat → Scan (List Item)
  | 0, _ => none
  | count + 1, cs =>
    match skipGaps false cs with
    | ']' :: rest => some ([], rest)
    | start => do
      let (item, rest) ← value start
      match skipGaps false rest with
      | ',' :: more =>
        let (others, after) ← items value count more
        pure (item :: others, after)
      | ']' :: after => pure ([item], after)
      | _ => none

def pair? (value : Scan Item) : Scan Pair := fun cs => do
  let ((key, path), rest) ← keyPath maxDepth cs
  match rest with
  | '=' :: more =>
    let (item, after) ← value (skipBlanks more)
    pure ({ key, path, value := item }, after)
  | _ => none

/-- At most so many pairs of a braced table, the first of which is here. -/
def bracedPairs (value : Scan Item) : Nat → Scan (List Pair)
  | 0, _ => none
  | count + 1, cs => do
    let (pair, rest) ← pair? value cs
    match skipBlanks rest with
    | ',' :: more =>
      let (others, after) ← bracedPairs value count more
      pure (pair :: others, after)
    | '\x7d' :: after => pure ([pair], after)
    | _ => none

def bracedTable (value : Scan Item) : Scan Item := fun cs =>
  match skipBlanks cs with
  | '\x7d' :: rest => some (.table .braced [], rest)
  | _ => do
    let (pairs, rest) ← bracedPairs value cs.length cs
    let entries ← Entries.putAll pairs []
    pure (.table .braced entries, rest)

/-- A value with at most so many brackets and braces around each other. -/
def value : Nat → Scan Item
  | 0, cs => scalar? cs
  | depth + 1, cs =>
    match cs with
    | '[' :: rest =>
      (items (value depth) (rest.length + 1) rest).map fun (items, after) => (.array items, after)
    | '\x7b' :: rest => bracedTable (value depth) rest
    | _ => scalar? cs

/-! ### Lines -/

/-- Pairs up to the next header or the end, from at most so many lines. -/
def pairs : Nat → Scan (List Pair)
  | 0, _ => none
  | lines + 1, cs =>
    match skipBlanks cs with
    | [] => some ([], [])
    | '[' :: rest => some ([], '[' :: rest)
    | start =>
      match lineEnd? start with
      | some rest => pairs lines rest
      | none => do
        let (pair, rest) ← pair? (value maxDepth) start
        let (others, after) ← pairs lines (← lineEnd? rest)
        pure (pair :: others, after)

/-- The dotted key of a header, up to the brackets that close it. -/
def headerKey (isRow : Bool) : Scan (String × List String) := fun cs => do
  let (key, rest) ← keyPath maxDepth cs
  match isRow, rest with
  | false, ']' :: after => pure (key, after)
  | true, ']' :: ']' :: after => pure (key, after)
  | _, _ => none

def sectionBehind (isRow : Bool) : Scan Section := fun cs => do
  let ((key, path), rest) ← headerKey isRow cs
  let lines ← lineEnd? rest
  let (pairs, after) ← pairs (lines.length + 1) lines
  pure ({ isRow, key, path, pairs }, after)

def sections : Nat → List Char → Option (List Section)
  | 0, _ => none
  | count + 1, cs =>
    match cs with
    | [] => some []
    | '[' :: '[' :: rest => do
      let (first, after) ← sectionBehind true rest
      (first :: ·) <$> sections count after
    | '[' :: rest => do
      let (first, after) ← sectionBehind false rest
      (first :: ·) <$> sections count after
    | _ => none

/-- A byte order mark in front of the text does not count. -/
def skipByteOrderMark : List Char → List Char
  | '\uFEFF' :: rest => rest
  | cs => cs

/-- The root table of a document. -/
def parse? (text : String) : Option Entries := do
  let cs := skipByteOrderMark text.toList
  let (rootPairs, rest) ← pairs (cs.length + 1) cs
  let root ← Entries.putAll rootPairs []
  (← sections (rest.length + 1) rest).foldlM
    (fun es s => Entries.addSection s.isRow s.pairs s.key s.path es) root

end PackedMovie.Toml
