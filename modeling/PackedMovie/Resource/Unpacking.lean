import PackedMovie.Resource.Options
import PackedMovie.Resource.Order
import PackedMovie.Storage.Sink
import PackedMovie.Swf.Movie

/-!
# Unpacking a movie

The order of the resources is resolved from one class of the first frame's bytecode; their payloads are the
movie's binaries. An unpacker keeps what the last successful resolution found, so a failed one changes
nothing.
-/
namespace PackedMovie.Resource

open PackedMovie.Swf (Movie AbcBlock)

/-- What one resolution finds, all of it or nothing. -/
structure Resolution where
  keymap : Keymap
  accessors : Accessors
  order : Order
  deriving DecidableEq

namespace Resolution

def empty : Resolution := ⟨.empty, .empty, []⟩

/-- The instructions of a method, by its index. -/
def instructionsOf (p : Abc.Program) (index : UInt32) : Except Error (List Code.Instruction) :=
  ofAbc (p.methodAt index >>= Abc.Method.instructions)

/-- The keymap comes from the class's static initializer, the accessors are its methods, and the names are
in its constructor. -/
def resolve (o : Options) (p : Abc.Program) : Except Error Resolution := do
  let (inst, static) ← ofAbc (p.classAt o.classIndex)
  let keymap ← Keymap.extract (← instructionsOf p static.cinit) p.constants.strings
  if keymap.isEmpty && o.strict then
    throw .missingKeymap
  let accessors ← Accessors.build inst.traits p.methods keymap
  let search : Order.Search := { target := Utf8.encode o.target, strict := o.strict, accessors }
  let order ← Order.resolve search (← instructionsOf p inst.iinit)
  pure { keymap, accessors, order }

end Resolution

/-- A symbol without what stands in front of its first underscore, and without the underscore. -/
def shortName (symbol : String) : String :=
  match symbol.toList.dropWhile (· != '_') with
  | _ :: rest => String.ofList rest
  | [] => symbol

/-- The payloads by their short names; of two with one name the later one counts. -/
def payloads (m : Movie) : Dictionary String Bytes :=
  .ofList (m.namedBinaries.map fun binary => (shortName binary.1, binary.2))

/-- Writes the payloads of some names in order, up to the first name without one, which is the result.
The sink is flushed only if every name has its payload. -/
def writePayloads (binaries : Dictionary String Bytes) :
    Order → Sink → Except Error (Option String) × Sink
  | [], sink =>
    match sink.flush with
    | .ok () => (.ok none, sink)
    | .error e => (.error (.system e), sink)
  | name :: rest, sink =>
    match binaries.get? name with
    | none => (.ok (some name), sink)
    | some payload =>
      match sink.write payload with
      | (.ok (), sink) => writePayloads binaries rest sink
      | (.error e, sink) => (.error (.system e), sink)

structure Unpacker where
  movie : Movie
  frame : AbcBlock
  options : Options
  resolution : Resolution
  binaries : Dictionary String Bytes

namespace Unpacker

/-- Nothing is resolved yet. -/
def new (m : Movie) : Except Error Unpacker :=
  match m.firstFrame? with
  | none => .error .missingFrame
  | some frame => .ok
    { movie := m, frame, options := .standard, resolution := .empty, binaries := .empty }

def withOptions (o : Options) (u : Unpacker) : Unpacker := { u with options := o }

def resolveOrder (u : Unpacker) : Except Error Order × Unpacker :=
  match Resolution.resolve u.options u.frame.program with
  | .ok r => (.ok r.order, { u with resolution := r })
  | .error e => (.error e, u)

def resolveBinaries (u : Unpacker) : Unpacker := { u with binaries := payloads u.movie }

def writeBinaries (u : Unpacker) (sink : Sink) : Except Error (Option String) × Sink :=
  writePayloads u.binaries u.resolution.order sink

/-- Resolves everything and writes the payloads. -/
def unpack (u : Unpacker) (sink : Sink) : (Except Error (Option String) × Sink) × Unpacker :=
  match u.resolveOrder with
  | (.error e, u) => ((.error e, sink), u)
  | (.ok _, u) =>
    let u := u.resolveBinaries
    (u.writeBinaries sink, u)

end Unpacker
end PackedMovie.Resource
