import PackedMovie.Json.Value
import PackedMovie.Resource.Chain

/-!
# The order of resources

A constructor names the resources in the order in which they are written. Behind the call of the base
constructor, each chain that begins with the target literal is followed by the name: the rest of the same
chain, or else the next chain.

Main statement: each round of the search leaves at least one call unit behind (`length_afterName_lt`,
`Chain.matchTarget_cons_length_lt`), which is why the search ends.
-/
namespace PackedMovie.Resource

open PackedMovie.Code (Instruction Opcode)

/-- Names in the order of their payloads. -/
abbrev Order := List String

namespace Order

def text (order : Order) : String := "[" ++ String.intercalate ", " order ++ "]"

def toJson (order : Order) : Json := .array (order.map Json.string)

/-- What a chain is searched for, and whether it may call what is no accessor. -/
structure Search where
  target : Bytes
  strict : Bool
  accessors : Accessors

/-- The name behind a target that has just been matched, and what follows the name. -/
def Search.nameBytes (s : Search) (is : List Instruction) : Except Error Bytes × List Instruction :=
  Chain.spellNext s.strict s.accessors is

theorem length_afterName_lt (s : Search) {is : List Instruction} (h : Chain.atUnit is = true) :
    (s.nameBytes (Chain.matchTarget s.accessors s.target is).2).2.length < is.length := by
  have hseek := Chain.seekUnit_length_le (Chain.matchTarget s.accessors s.target is).2
  have hspell := Chain.spell_length_le s.strict s.accessors
    (Chain.seekUnit (Chain.matchTarget s.accessors s.target is).2)
  simp only [Search.nameBytes, Chain.spellNext]
  cases htarget : s.target with
  | nil =>
    simp only [Chain.matchTarget, Chain.seekUnit_of_atUnit h]
    have := Chain.spell_length_lt s.strict s.accessors h
    omega
  | cons b target =>
    rw [htarget] at hseek hspell
    have := Chain.matchTarget_cons_length_lt s.accessors b target h
    omega

theorem length_afterMismatch_lt (s : Search) {is : List Instruction} (h : Chain.atUnit is = true)
    (hmatch : ¬ (Chain.matchTarget s.accessors s.target is).1 = true) :
    (Chain.matchTarget s.accessors s.target is).2.length < is.length := by
  cases htarget : s.target with
  | nil => simp [htarget, Chain.matchTarget] at hmatch
  | cons b target =>
    have := Chain.matchTarget_cons_length_lt s.accessors b target h
    omega

/-- The text of a name, if its bytes have one. -/
def nameText (bytes : Bytes) : Except Error String :=
  match Utf8.decode bytes with
  | .ok name => .ok name
  | .error e => .error (.invalidName e)

/-- All names still ahead, up to the first that cannot be read. -/
def namesFrom (s : Search) (is : List Instruction) : Except Error Order :=
  if _h : Chain.atUnit (Chain.seekUnit is) = true then
    let found := Chain.matchTarget s.accessors s.target (Chain.seekUnit is)
    if _hm : found.1 = true then
      match (s.nameBytes found.2).1 with
      | .error e => .error e
      | .ok bytes =>
        match nameText bytes with
        | .error e => .error e
        | .ok name => (name :: ·) <$> namesFrom s (s.nameBytes found.2).2
    else namesFrom s found.2
  else .ok []
termination_by is.length
decreasing_by
  · exact Nat.lt_of_lt_of_le (length_afterName_lt s _h) (Chain.seekUnit_length_le is)
  · exact Nat.lt_of_lt_of_le (length_afterMismatch_lt s _h _hm) (Chain.seekUnit_length_le is)

/-- The names in a constructor; none if it does not call its base constructor. -/
def resolve (s : Search) (is : List Instruction) : Except Error Order :=
  match Chain.seekPast? .constructSuper is with
  | none => .ok []
  | some rest => namesFrom s rest

end Order
end PackedMovie.Resource
