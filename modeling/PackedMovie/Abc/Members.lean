import PackedMovie.Abc.Field

/-!
# Traits: the members of classes, scripts and activations
-/
namespace PackedMovie.Abc

open PackedMovie.Reader (u8 under)
open Abc.Reader (u30 counted)

/-- What a trait declares. A default value is an index and the kind of constant it selects. -/
inductive TraitKind where
  | slot (slotId typeName : UInt32) (value : Option (UInt32 × UInt8))
  | method (dispId method : UInt32)
  | getter (dispId method : UInt32)
  | setter (dispId method : UInt32)
  | classDef (slotId classIndex : UInt32)
  | function (slotId method : UInt32)
  | const (slotId typeName : UInt32) (value : Option (UInt32 × UInt8))
  deriving DecidableEq, Repr

structure Trait where
  name : UInt32
  kind : TraitKind
  attributes : UInt8
  metadata : List UInt32
  deriving DecidableEq, Repr

/-- Is a flag set? -/
def hasFlag (flags flag : UInt8) : Bool := flags &&& flag != 0

namespace TraitKind

/-- The number of a kind, as the low half of a kind byte holds it. -/
def code : TraitKind → UInt8
  | .slot .. => 0
  | .method .. => 1
  | .getter .. => 2
  | .setter .. => 3
  | .classDef .. => 4
  | .function .. => 5
  | .const .. => 6

def writeValue : Option (UInt32 × UInt8) → Bytes
  | some (index, kind) => Write.u30 index ++ Write.u8 kind
  | none => Write.u30 0

/-- A zero index stands for no value and has no kind after it. -/
def readValue : Reader (Option (UInt32 × UInt8)) := do
  let index ← u30
  if index = 0 then
    pure none
  else
    let kind ← u8
    pure (some (index, kind))

def write : TraitKind → Bytes
  | .slot slotId typeName value
  | .const slotId typeName value => Write.u30 slotId ++ Write.u30 typeName ++ writeValue value
  | .method dispId index
  | .getter dispId index
  | .setter dispId index => Write.u30 dispId ++ Write.u30 index
  | .classDef slotId index => Write.u30 slotId ++ Write.u30 index
  | .function slotId index => Write.u30 slotId ++ Write.u30 index

def readSlot (make : UInt32 → UInt32 → Option (UInt32 × UInt8) → TraitKind) :
    Reader TraitKind := do
  let slotId ← u30
  let typeName ← u30
  let value ← readValue
  pure (make slotId typeName value)

def readPair (make : UInt32 → UInt32 → TraitKind) : Reader TraitKind := do
  let first ← u30
  let second ← u30
  pure (make first second)

def read (code : UInt8) : Reader TraitKind :=
  if code = 0 then readSlot .slot
  else if code = 1 then readPair .method
  else if code = 2 then readPair .getter
  else if code = 3 then readPair .setter
  else if code = 4 then readPair .classDef
  else if code = 5 then readPair .function
  else if code = 6 then readSlot .const
  else throw (.invalidTraitKind code)

end TraitKind

namespace Trait

/-- The attribute that metadata follows. -/
def hasMetadata : UInt8 := 0x4

def ofMethod (name method : UInt32) : Trait := ⟨name, .method 0 method, 0, []⟩

/-- The method of a method trait; getters and setters do not count. -/
def method? (t : Trait) : Option UInt32 :=
  match t.kind with
  | .method _ index => some index
  | _ => none

/-- The attributes stand in the high half of the kind byte. -/
def write (t : Trait) : Bytes :=
  Write.u30 t.name
    ++ Write.u8 ((t.attributes <<< 4) ||| t.kind.code)
    ++ t.kind.write
    ++ (if hasFlag t.attributes hasMetadata then Write.counted Write.u30 t.metadata else [])

def read : Reader Trait := do
  let name ← u30
  let kindByte ← u8
  let attributes := kindByte >>> 4
  let kind ← TraitKind.read (kindByte &&& 0x0F)
  let metadata ← under (hasFlag attributes hasMetadata) [] (counted u30)
  pure { name, kind, attributes, metadata }

def writeAll (traits : List Trait) : Bytes := Write.counted write traits

def readAll : Reader (List Trait) := counted read

end Trait
end PackedMovie.Abc
