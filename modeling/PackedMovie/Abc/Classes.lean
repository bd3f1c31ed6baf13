import PackedMovie.Abc.Members

/-!
# Classes, scripts and metadata

A class has two halves, the instances' and the static one, kept in two tables of the same length.
-/
namespace PackedMovie.Abc

open PackedMovie.Reader (u8 times under)
open Abc.Reader (u30 counted)

structure Instance where
  name : UInt32
  superName : UInt32
  flags : UInt8
  protectedNamespace : Option UInt32
  interfaces : List UInt32
  iinit : UInt32
  traits : List Trait
  deriving DecidableEq, Repr

/-- The static half of a class. -/
structure Class where
  cinit : UInt32
  traits : List Trait
  deriving DecidableEq, Repr

structure Script where
  init : UInt32
  traits : List Trait
  deriving DecidableEq, Repr

/-- Keys and values are indices of strings. -/
structure Metadata where
  name : UInt32
  items : List (UInt32 × UInt32)
  deriving DecidableEq, Repr

namespace Instance

def protectedFlag : UInt8 := 0x08

def hasProtected (i : Instance) : Bool := hasFlag i.flags protectedFlag

def write (i : Instance) : Bytes :=
  Write.u30 i.name
    ++ Write.u30 i.superName
    ++ Write.u8 i.flags
    ++ (if i.hasProtected then Write.u30 (i.protectedNamespace.getD 0) else [])
    ++ Write.counted Write.u30 i.interfaces
    ++ Write.u30 i.iinit
    ++ Trait.writeAll i.traits

def read : Reader Instance := do
  let name ← u30
  let superName ← u30
  let flags ← u8
  let protectedNamespace ← under (hasFlag flags protectedFlag) none (some <$> u30)
  let interfaces ← counted u30
  let iinit ← u30
  let traits ← Trait.readAll
  pure { name, superName, flags, protectedNamespace, interfaces, iinit, traits }

/-- A class half without base class or members. -/
def ofName (name : UInt32) : Instance where
  name := name
  superName := 0
  flags := 0
  protectedNamespace := none
  interfaces := []
  iinit := 0
  traits := []

end Instance

namespace Class

def write (c : Class) : Bytes := Write.u30 c.cinit ++ Trait.writeAll c.traits

def read : Reader Class := do
  let cinit ← u30
  let traits ← Trait.readAll
  pure ⟨cinit, traits⟩

end Class

namespace Script

def write (s : Script) : Bytes := Write.u30 s.init ++ Trait.writeAll s.traits

def read : Reader Script := do
  let init ← u30
  let traits ← Trait.readAll
  pure ⟨init, traits⟩

end Script

namespace Metadata

/-- All keys come before all values. -/
def write (m : Metadata) : Bytes :=
  Write.u30 m.name
    ++ Write.length m.items.length
    ++ m.items.flatMap (fun item => Write.u30 item.1)
    ++ m.items.flatMap (fun item => Write.u30 item.2)

def read : Reader Metadata := do
  let name ← u30
  let count ← u30
  let keys ← times count.toNat u30
  let values ← times count.toNat u30
  pure ⟨name, keys.zip values⟩

end Metadata
end PackedMovie.Abc
