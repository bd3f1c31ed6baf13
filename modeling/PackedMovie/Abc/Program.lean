import PackedMovie.Abc.Classes
import PackedMovie.Abc.Constants
import PackedMovie.Abc.Methods
import PackedMovie.Bytes.Double

/-!
# A whole ABC file

The tables of a program, its written form and its reader. Body records come last and are attached to
the methods they name, in any order; of two records for one method the later one counts.
-/
namespace PackedMovie.Abc

open PackedMovie.Reader (u16 times)
open Abc.Reader (u30 counted)

structure Program where
  minorVersion : UInt16
  majorVersion : UInt16
  constants : ConstantPool
  methods : List Method
  metadata : List Metadata
  instances : List Instance
  classes : List Class
  scripts : List Script
  deriving DecidableEq, Repr

namespace Program

/-! ### Written form -/

/-- The bodies with the positions of their methods, the first of which is `start`. -/
def bodies (start : Nat) : List Method → List (UInt32 × Body)
  | [] => []
  | m :: rest =>
    match m.body with
    | some body => (UInt32.ofNat start, body) :: bodies (start + 1) rest
    | none => bodies (start + 1) rest

/-- The number of instance halves stands for the number of classes. -/
def write (p : Program) : Bytes :=
  Write.u16 p.minorVersion
    ++ Write.u16 p.majorVersion
    ++ p.constants.write
    ++ Write.counted Method.writeSignature p.methods
    ++ Write.counted Metadata.write p.metadata
    ++ Write.counted Instance.write p.instances
    ++ p.classes.flatMap Class.write
    ++ Write.counted Script.write p.scripts
    ++ Write.counted (fun record => Body.write record.1 record.2) (bodies 0 p.methods)

/-! ### Reading -/

/-- Gives the method at `index` a body. -/
def attach (methods : List Method) (index : UInt32) (body : Body) : Except Error (List Method) :=
  if index.toNat < methods.length then
    .ok (methods.modify index.toNat fun m => { m with body := some body })
  else .error (.indexOutOfRange .methods index methods.length)

/-- Reads `count` body records and attaches each as soon as it is read. -/
def readBodies : Nat → List Method → Reader (List Method)
  | 0, methods => pure methods
  | count + 1, methods => do
    let record ← Body.read
    match attach methods record.1 record.2 with
    | .ok methods => readBodies count methods
    | .error e => throw e

def read : Reader Program := do
  let minorVersion ← u16
  let majorVersion ← u16
  let constants ← ConstantPool.read
  let signatures ← counted Method.readSignature
  let metadata ← counted Metadata.read
  let classCount ← u30
  let instances ← times classCount.toNat Instance.read
  let classes ← times classCount.toNat Class.read
  let scripts ← counted Script.read
  let bodyCount ← u30
  let methods ← readBodies bodyCount.toNat signatures
  pure { minorVersion, majorVersion, constants, methods, metadata, instances, classes, scripts }

/-- The program at the front of a byte string; bytes after it do not matter. -/
def parse (bytes : Bytes) : Except Error Program := PackedMovie.Reader.runOn read bytes

/-- Equality of programs in which doubles are compared as numbers. -/
def sameValues (p q : Program) : Bool :=
  let withoutDoubles (r : Program) : Program :=
    { r with constants := { r.constants with doubles := [] } }
  decide (withoutDoubles p = withoutDoubles q)
    && Double.sameNumbers p.constants.doubles q.constants.doubles

/-! ### Looking up -/

def classCount (p : Program) : Nat := p.instances.length

/-- Both halves of a class. -/
def classAt (p : Program) (index : Nat) : Except Error (Instance × Class) :=
  match p.instances[index]?, p.classes[index]? with
  | some inst, some static => .ok (inst, static)
  | _, _ => .error (.indexOutOfRange .classes (UInt32.ofNat index) p.instances.length)

def methodAt (p : Program) (index : UInt32) : Except Error Method :=
  match p.methods[index.toNat]? with
  | some m => .ok m
  | none => .error (.indexOutOfRange .methods index p.methods.length)

/-- The local name of a class, if it has one. -/
def className? (p : Program) (index : Nat) : Option String := do
  let inst ← p.instances[index]?
  p.constants.localName? inst.name

end Program
end PackedMovie.Abc
