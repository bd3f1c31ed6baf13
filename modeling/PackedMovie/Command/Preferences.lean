import PackedMovie.Resource.Options
import PackedMovie.Storage.Input
import PackedMovie.Toml.Document

/-!
# Preferences

What a settings file or a command line may leave open. The command line's preferences go over those of the
file, and what both leave open has a standard value.
-/
namespace PackedMovie.Command

structure Preferences where
  input? : Option String
  classIndex? : Option Nat
  target? : Option String
  strict : Bool
  deriving DecidableEq, Repr

namespace Preferences

/-- Everything is left open. -/
def empty : Preferences where
  input? := none
  classIndex? := none
  target? := none
  strict := false

/-- The movie that is unpacked unless another one is named. -/
def standardInput : String := "https://www.transformice.com/Transformice.swf"

/-- The first preferences, and the second ones for what those leave open. Either may ask for strictness. -/
def orElse (first second : Preferences) : Preferences where
  input? := first.input?.or second.input?
  classIndex? := first.classIndex?.or second.classIndex?
  target? := first.target?.or second.target?
  strict := first.strict || second.strict

def input (p : Preferences) : Input := .ofText (p.input?.getD standardInput)

def options (p : Preferences) : Resource.Options where
  classIndex := p.classIndex?.getD Resource.Options.standard.classIndex
  target := p.target?.getD Resource.Options.standard.target
  strict := p.strict

/-! ### Settings files -/

def indexOfItem? : Toml.Item → Option Nat
  | .integer n => if 0 ≤ n then some n.toNat else none
  | _ => none

def textOfItem? : Toml.Item → Option String
  | .text text => some text
  | _ => none

def boolOfItem? : Toml.Item → Option Bool
  | .boolean b => some b
  | _ => none

/-- An entry that may be absent, but not of the wrong kind. -/
def optional {α : Type} (read : Toml.Item → Option α) (key : String) (es : Toml.Entries) :
    Option (Option α) :=
  match es.lookup key with
  | some item => some <$> read item
  | none => some none

/-- Entries with other keys do not matter. -/
def ofEntries? (es : Toml.Entries) : Option Preferences := do
  let input? ← optional textOfItem? "input" es
  let classIndex? ← optional indexOfItem? "class_index" es
  let target? ← optional textOfItem? "target" es
  let strict? ← optional boolOfItem? "strict" es
  pure { input?, classIndex?, target?, strict := strict?.getD false }

def parse? (settings : String) : Option Preferences := Toml.parse? settings >>= ofEntries?

end Preferences
end PackedMovie.Command
