import PackedMovie.Resource.Chain

/-!
# Walking over instructions

A walker keeps its place in a list of instructions between one question and the next.
-/
namespace PackedMovie.Resource

open PackedMovie.Code (Instruction Opcode)

/-- `rest` is what lies ahead of the walker. -/
structure Walker where
  instructions : List Instruction
  accessors : Accessors
  strict : Bool
  rest : List Instruction

namespace Walker

def start (instructions : List Instruction) (accessors : Accessors) (strict : Bool) : Walker :=
  { instructions, accessors, strict, rest := instructions }

def position (w : Walker) : Nat := w.instructions.length - w.rest.length

def address? (w : Walker) : Option UInt32 := w.rest.head?.map (·.address)

def isAtEnd (w : Walker) : Bool := w.rest.isEmpty

def moveTo (w : Walker) (rest : List Instruction) : Walker := { w with rest }

/-- Is there another unit? The walker stops at it, or at the end. -/
def nextString (w : Walker) : Bool × Walker :=
  let rest := Chain.seekUnit w.rest
  (!rest.isEmpty, w.moveTo rest)

def nextUnit (w : Walker) : Option CallUnit × Walker :=
  let r := Chain.nextUnit w.rest
  (r.1, w.moveTo r.2)

def skip (w : Walker) : Walker := w.moveTo (Chain.skip w.rest)

def spellNext (w : Walker) : Except Error Bytes × Walker :=
  let r := Chain.spellNext w.strict w.accessors w.rest
  (r.1, w.moveTo r.2)

def matchTarget (target : Bytes) (w : Walker) : Bool × Walker :=
  let r := Chain.matchTarget w.accessors target w.rest
  (r.1, w.moveTo r.2)

/-- Is there such an opcode ahead? The walker stops behind it, or at the end. -/
def seekPast (op : Opcode) (w : Walker) : Bool × Walker :=
  match Chain.seekPast? op w.rest with
  | some rest => (true, w.moveTo rest)
  | none => (false, w.moveTo [])

end Walker
end PackedMovie.Resource
