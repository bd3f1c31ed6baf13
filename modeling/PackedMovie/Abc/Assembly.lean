import PackedMovie.Abc.Program

/-!
# Putting a program together

A program grows from the empty one step by step. Every step that adds an entry gives the entry's
index; nothing added is ever moved.
-/
namespace PackedMovie.Abc.Program

/-- No entries, in the version that this library writes. -/
def empty : Program where
  minorVersion := 16
  majorVersion := 46
  constants := .empty
  methods := []
  metadata := []
  instances := []
  classes := []
  scripts := []

/-- Work on the constants of a program. -/
def onConstants {α : Type} (step : StateM ConstantPool α) : StateM Program α := fun p =>
  let r := step.run p.constants
  (r.1, { p with constants := r.2 })

def addMethod (m : Method) : StateM Program UInt32 := fun p =>
  (UInt32.ofNat p.methods.length, { p with methods := p.methods ++ [m] })

/-- Both halves of a class enter at the same index. -/
def addClass (inst : Instance) (static : Class) : StateM Program Nat := fun p =>
  (p.instances.length,
    { p with instances := p.instances ++ [inst], classes := p.classes ++ [static] })

def addScript (s : Script) : StateM Program Unit :=
  modify fun p => { p with scripts := p.scripts ++ [s] }

/-- A class half under a new name. -/
def newInstance (name : String) : StateM Program Instance :=
  Instance.ofName <$> onConstants (ConstantPool.addQName name)

/-- What can be added to a program. The methods of a class are pairs of a name and a method. -/
inductive Step where
  | string (text : String)
  | qname (text : String)
  | int (n : Int32)
  | method (m : Method)
  | classNamed (name : String) (iinit cinit : UInt32) (methods : List (UInt32 × UInt32))
  | script (init : UInt32)
  deriving DecidableEq, Repr

/-- The index of what was added, if it has one. -/
def Step.run : Step → StateM Program (Option Nat)
  | .string text => (fun i : UInt32 => some i.toNat) <$> onConstants (ConstantPool.addString text)
  | .qname text => (fun i : UInt32 => some i.toNat) <$> onConstants (ConstantPool.addQName text)
  | .int n => do
    onConstants (ConstantPool.addInt n)
    pure none
  | .method m => (fun i : UInt32 => some i.toNat) <$> addMethod m
  | .classNamed name iinit cinit methods => do
    let inst ← newInstance name
    let traits := methods.map fun entry => Trait.ofMethod entry.1 entry.2
    some <$> addClass { inst with iinit, traits } ⟨cinit, []⟩
  | .script init => do
    addScript ⟨init, []⟩
    pure none

/-- The program that steps make from nothing, and the index each step gave. -/
def assemble (steps : List Step) : List (Option Nat) × Program := (steps.mapM Step.run).run empty

end PackedMovie.Abc.Program
