import PackedMovie.Bytes.LittleEndian
import PackedMovie.Storage.SystemError
import PackedMovie.Text.Utf8

/-!
# File trees

Files and directories by their paths from the root. Paths are resolved one name at a time, and each name but
the last must be that of a directory.
-/
namespace PackedMovie

/-- The names on the way from the root. -/
abbrev Location := List String

/-- The location itself, then the ones above it up to the root. -/
def Location.upward (location : Location) : List Location :=
  (List.range (location.length + 1)).reverse.map fun depth => location.take depth

inductive FileTree.Entry where
  | file (content : Bytes)
  | directory
  deriving DecidableEq, Repr

/-- Each location is listed at most once, and never the root, which is a directory. -/
structure FileTree where
  entries : List (Location × FileTree.Entry)
  deriving DecidableEq, Repr

namespace FileTree

def empty : FileTree := ⟨[]⟩

def lookup (location : Location) : List (Location × Entry) → Option Entry
  | [] => none
  | e :: rest => if e.1 = location then some e.2 else lookup location rest

def replace (location : Location) (entry : Entry) :
    List (Location × Entry) → List (Location × Entry)
  | [] => [(location, entry)]
  | e :: rest => if e.1 = location then (location, entry) :: rest else e :: replace location entry rest

def get? (t : FileTree) (location : Location) : Option Entry :=
  if location = [] then some .directory else lookup location t.entries

def set (location : Location) (entry : Entry) (t : FileTree) : FileTree :=
  ⟨replace location entry t.entries⟩

theorem lookup_replace (location other : Location) (entry : Entry) : ∀ entries,
    lookup other (replace location entry entries) =
      if other = location then some entry else lookup other entries
  | [] => by simp [replace, lookup, eq_comm]
  | e :: rest => by
    unfold replace
    by_cases he : e.1 = location
    · by_cases h : other = location
      · simp [lookup, he, h]
      · simp [lookup, he, h, Ne.symm h]
    · by_cases h : e.1 = other
      · simp [lookup, h, h ▸ he]
      · simp [lookup, he, h, lookup_replace location other entry rest]

theorem get?_set {location other : Location} (entry : Entry) (t : FileTree) (hroot : other ≠ []) :
    (t.set location entry).get? other = if other = location then some entry else t.get? other := by
  simp [get?, set, hroot, lookup_replace]

/-- Makes a directory and those above it, unless there is something already. -/
def addDirectory (location : Location) (t : FileTree) : FileTree :=
  (Location.upward location).foldr
    (fun above t => if (t.get? above).isSome then t else t.set above .directory) t

/-- Puts a file at a location whose directory is made if need be. -/
def addFile (location : Location) (content : Bytes) (t : FileTree) : FileTree :=
  (t.addDirectory location.dropLast).set location (.file content)

/-- The files that an earlier tree does not have, or has with other bytes. -/
def changedSince (t before : FileTree) : List (Location × Bytes) :=
  t.entries.filterMap fun
    | (location, .file content) =>
      if before.get? location = some (.file content) then none else some (location, content)
    | (_, .directory) => none

/-! ### Paths -/

/-- The names of a path. Slashes next to each other count as one. -/
def names (path : String) : List String := (path.splitOn "/").filter (· ≠ "")

def endsInSlash (path : String) : Bool := path.endsWith "/"

def maxNameLength : Nat := 255

def maxPathLength : Nat := 4095

inductive Place where
  | found (location : Location) (entry : Entry)
  /-- A free name in a directory. -/
  | free (location : Location)
  deriving DecidableEq, Repr

/-- Goes down from a directory. -/
def descend (t : FileTree) (directory : Location) : List String → Except SystemError Place
  | [] => .ok (.found directory .directory)
  | name :: rest =>
    if name = "." then t.descend directory rest
    else if name = ".." then t.descend directory.dropLast rest
    else if maxNameLength < (Utf8.encode name).length then .error .nameTooLong
    else
      match t.get? (directory ++ [name]), rest with
      | some .directory, rest => t.descend (directory ++ [name]) rest
      | some (.file content), [] => .ok (.found (directory ++ [name]) (.file content))
      | some (.file _), _ :: _ => .error .notDirectory
      | none, [] => .ok (.free (directory ++ [name]))
      | none, _ :: _ => .error .noSuchEntry

/-- Where some names lead, from the root if the path is absolute, and otherwise from a directory. -/
def locate (t : FileTree) (working : Location) (path : String) (names : List String) :
    Except SystemError Place :=
  if path.contains '\x00' then .error .nulInPath
  else if path.isEmpty then .error .noSuchEntry
  else if maxPathLength < (Utf8.encode path).length then .error .nameTooLong
  else t.descend (if path.startsWith "/" then [] else working) names

/-- What a path leads to. Behind a slash at its end there has to be a directory. -/
def find (t : FileTree) (working : Location) (path : String) : Except SystemError Entry := do
  match ← t.locate working path (names path ++ if endsInSlash path then ["."] else []) with
  | .found _ entry => pure entry
  | .free _ => throw .noSuchEntry

def hasEntry (t : FileTree) (working : Location) (path : String) : Bool :=
  match t.find working path with
  | .ok _ => true
  | .error _ => false

def read (t : FileTree) (working : Location) (path : String) : Except SystemError Bytes := do
  match ← t.find working path with
  | .file content => pure content
  | .directory => throw .isDirectory

/-- Makes a file, or empties the one that is there, and fills it. -/
def write (t : FileTree) (working : Location) (path : String) (content : Bytes) :
    Except SystemError FileTree := do
  match ← t.locate working path (names path) with
  | .found _ .directory => throw .isDirectory
  | .found location (.file _) =>
    if endsInSlash path then throw .isDirectory else pure (t.set location (.file content))
  | .free location =>
    if endsInSlash path then throw .isDirectory else pure (t.set location (.file content))

end FileTree
end PackedMovie
