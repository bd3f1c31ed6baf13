import PackedMovie.Abc.Members
import PackedMovie.Code.Instruction

/-!
# Methods: signatures and bodies

A file stores signatures and bodies apart; a body record names the method it belongs to.
-/
namespace PackedMovie.Abc

open PackedMovie.Reader (u8 times bytes under)
open Abc.Reader (u30 counted)

structure OptionalValue where
  value : UInt32
  kind : UInt8
  deriving DecidableEq, Repr

/-- An exception handler and the code range it guards. -/
structure Handler where
  start : UInt32
  stop : UInt32
  target : UInt32
  exceptionType : UInt32
  variableName : UInt32
  deriving DecidableEq, Repr

structure Body where
  maxStack : UInt32
  localCount : UInt32
  initScopeDepth : UInt32
  maxScopeDepth : UInt32
  code : Bytes
  handlers : List Handler
  traits : List Trait
  deriving DecidableEq, Repr

structure Method where
  paramTypes : List UInt32
  returnType : UInt32
  name : UInt32
  flags : UInt8
  options : List OptionalValue
  paramNames : List UInt32
  body : Option Body
  deriving DecidableEq, Repr

namespace OptionalValue

def write (o : OptionalValue) : Bytes := Write.u30 o.value ++ Write.u8 o.kind

def read : Reader OptionalValue := do
  let value ← u30
  let kind ← u8
  pure ⟨value, kind⟩

end OptionalValue

namespace Handler

def write (h : Handler) : Bytes :=
  Write.u30 h.start ++ Write.u30 h.stop ++ Write.u30 h.target
    ++ Write.u30 h.exceptionType ++ Write.u30 h.variableName

def read : Reader Handler := do
  let start ← u30
  let stop ← u30
  let target ← u30
  let exceptionType ← u30
  let variableName ← u30
  pure { start, stop, target, exceptionType, variableName }

end Handler

namespace Body

/-- The record of a method's body. -/
def write (method : UInt32) (b : Body) : Bytes :=
  Write.u30 method
    ++ Write.u30 b.maxStack
    ++ Write.u30 b.localCount
    ++ Write.u30 b.initScopeDepth
    ++ Write.u30 b.maxScopeDepth
    ++ Write.length b.code.length ++ b.code
    ++ Write.counted Handler.write b.handlers
    ++ Trait.writeAll b.traits

def read : Reader (UInt32 × Body) := do
  let method ← u30
  let maxStack ← u30
  let localCount ← u30
  let initScopeDepth ← u30
  let maxScopeDepth ← u30
  let codeLength ← u30
  let code ← bytes codeLength.toNat
  let handlers ← counted Handler.read
  let traits ← Trait.readAll
  pure (method, { maxStack, localCount, initScopeDepth, maxScopeDepth, code, handlers, traits })

def instructions (b : Body) : Except Error (List Code.Instruction) := Code.decode b.code

end Body

namespace Method

/-- The method takes its remaining arguments as a list. -/
def needRestFlag : UInt8 := 0x04
def hasOptionalFlag : UInt8 := 0x08
def hasParamNamesFlag : UInt8 := 0x80

def needRest (m : Method) : Bool := hasFlag m.flags needRestFlag
def hasOptional (m : Method) : Bool := hasFlag m.flags hasOptionalFlag
def hasParamNames (m : Method) : Bool := hasFlag m.flags hasParamNamesFlag

/-- The depth of the operand stack, zero without a body. -/
def maxStack (m : Method) : UInt32 :=
  match m.body with
  | some body => body.maxStack
  | none => 0

/-- The instructions of the body, none without one. -/
def instructions (m : Method) : Except Error (List Code.Instruction) :=
  match m.body with
  | some body => body.instructions
  | none => .ok []

/-- The signature; optional values and parameter names are written under their flags. -/
def writeSignature (m : Method) : Bytes :=
  Write.length m.paramTypes.length
    ++ Write.u30 m.returnType
    ++ m.paramTypes.flatMap Write.u30
    ++ Write.u30 m.name
    ++ Write.u8 m.flags
    ++ (if m.hasOptional then Write.counted OptionalValue.write m.options else [])
    ++ (if m.hasParamNames then m.paramNames.flatMap Write.u30 else [])

def readSignature : Reader Method := do
  let paramCount ← u30
  let returnType ← u30
  let paramTypes ← times paramCount.toNat u30
  let name ← u30
  let flags ← u8
  let options ← under (hasFlag flags hasOptionalFlag) [] (counted OptionalValue.read)
  let paramNames ← under (hasFlag flags hasParamNamesFlag) [] (times paramCount.toNat u30)
  pure { paramTypes, returnType, name, flags, options, paramNames, body := none }

/-! ### Putting methods together -/

def empty : Method where
  paramTypes := []
  returnType := 0
  name := 0
  flags := 0
  options := []
  paramNames := []
  body := none

def withName (name : UInt32) (m : Method) : Method := { m with name }

/-- One more parameter of any type. -/
def addParam (m : Method) : Method := { m with paramTypes := m.paramTypes ++ [0] }

def withRest (value : Bool) (m : Method) : Method :=
  { m with flags := if value then m.flags ||| needRestFlag else m.flags &&& ~~~needRestFlag }

/-- A body of plain code: one local, one scope, no handlers and no traits. -/
def withBody (maxStack : UInt32) (code : Bytes) (m : Method) : Method :=
  { m with body := some {
      maxStack, code
      localCount := 1
      initScopeDepth := 0
      maxScopeDepth := 1
      handlers := []
      traits := [] } }

end Method
end PackedMovie.Abc
