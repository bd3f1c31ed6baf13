/-!
# TOML items and tables

A table remembers how it came to be, because that decides what may still be added to it: dotted keys extend
only tables that dotted keys made, a header takes over only a table that other headers implied, and a table
between braces is complete.
-/
namespace PackedMovie.Toml

inductive Origin where
  | header
  /-- Named only on the way to another table's header. -/
  | implied
  | dotted
  /-- Written between braces. -/
  | braced
  deriving DecidableEq, Repr

/-- Numbers with a fraction and moments are kept as they are written. -/
inductive Item where
  | text (value : String)
  | integer (value : Int)
  | boolean (value : Bool)
  | float (literal : String)
  | moment (literal : String)
  | array (items : List Item)
  | table (origin : Origin) (entries : List (String × Item))
  /-- Tables under one name, each with a header in double brackets. -/
  | rows (tables : List (List (String × Item)))

abbrev Entries := List (String × Item)

/-- A value and the dotted key in front of it, which has at least one part. -/
structure Pair where
  key : String
  path : List String
  value : Item

/-- The lines from one header up to the next. -/
structure Section where
  /-- Does each such header begin another table? -/
  isRow : Bool
  key : String
  path : List String
  pairs : List Pair

namespace Entries

def set (key : String) (item : Item) : Entries → Entries
  | [] => [(key, item)]
  | e :: rest => if e.1 = key then (key, item) :: rest else e :: set key item rest

/-- Puts a value at the end of a dotted key that is still free. The last table on the way must have been made
by dotted keys; those in front of it may also be implied, or the last row of their name. -/
def put (value : Item) : String → List String → Entries → Option Entries
  | key, [], es =>
    match es.lookup key with
    | none => some (set key value es)
    | some _ => none
  | key, next :: path, es =>
    match es.lookup key with
    | none => (fun inner => set key (.table .dotted inner) es) <$> put value next path []
    | some (.table .dotted inner) =>
      (fun inner => set key (.table .dotted inner) es) <$> put value next path inner
    | some (.table .implied inner) =>
      if path.isEmpty then none
      else (fun inner => set key (.table .implied inner) es) <$> put value next path inner
    | some (.rows tables) =>
      if path.isEmpty then none
      else tables.getLast?.bind fun last =>
        (fun last => set key (.rows (tables.dropLast ++ [last])) es) <$> put value next path last
    | some _ => none

def putAll (pairs : List Pair) (es : Entries) : Option Entries :=
  pairs.foldlM (fun es p => put p.value p.key p.path es) es

/-- The item that a header's table becomes, given what already has its name. -/
def opened? (isRow : Bool) (pairs : List Pair) (present : Option Item) : Option Item :=
  match isRow, present with
  | false, none => Item.table .header <$> putAll pairs []
  | false, some (.table .implied es) => Item.table .header <$> putAll pairs es
  | true, none => (fun table => Item.rows [table]) <$> putAll pairs []
  | true, some (.rows tables) => (fun table => Item.rows (tables ++ [table])) <$> putAll pairs []
  | _, _ => none

/-- Adds the lines under a header. Tables missing on the way are implied; a row leads to the last of its
name; what is braced or no table leads nowhere. -/
def addSection (isRow : Bool) (pairs : List Pair) : String → List String → Entries → Option Entries
  | key, [], es => (fun item => set key item es) <$> opened? isRow pairs (es.lookup key)
  | key, next :: path, es =>
    match es.lookup key with
    | none => (fun inner => set key (.table .implied inner) es) <$> addSection isRow pairs next path []
    | some (.table .braced _) => none
    | some (.table origin inner) =>
      (fun inner => set key (.table origin inner) es) <$> addSection isRow pairs next path inner
    | some (.rows tables) =>
      tables.getLast?.bind fun last =>
        (fun last => set key (.rows (tables.dropLast ++ [last])) es) <$>
          addSection isRow pairs next path last
    | some _ => none

end Entries
end PackedMovie.Toml
