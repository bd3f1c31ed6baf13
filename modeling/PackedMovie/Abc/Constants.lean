import PackedMovie.Abc.Field

/-!
# The constant pool

Seven tables of constants. Each begins with an implicit entry that no file stores, so that an index
found in the file is a position in the table. Strings added to a pool are shared: the same string is
never stored twice, the implicit entry apart.
-/
namespace PackedMovie.Abc

open PackedMovie.Reader (u8 u64 times)
open Abc.Reader (u30 s32 counted)

structure Namespace where
  kind : UInt8
  name : UInt32
  deriving DecidableEq, Repr

/-- Names are indices of strings; a late name is found on the stack at run time. -/
inductive Multiname where
  | qname (namespaceIndex name : UInt32) (isAttribute : Bool)
  | runtimeQName (name : UInt32) (isAttribute : Bool)
  | runtimeQNameLate (isAttribute : Bool)
  | multiname (name namespaceSet : UInt32) (isAttribute : Bool)
  | multinameLate (namespaceSet : UInt32) (isAttribute : Bool)
  | typeName (base : UInt32) (parameters : List UInt32)
  deriving DecidableEq, Repr

/-- Doubles are bit patterns. -/
structure ConstantPool where
  ints : List Int32
  uints : List UInt32
  doubles : List UInt64
  strings : List String
  namespaces : List Namespace
  namespaceSets : List (List UInt32)
  multinames : List Multiname
  deriving DecidableEq, Repr

/-! ### Multinames -/

namespace Multiname

/-- The string index of the local name, of the kinds that carry one. -/
def name? : Multiname → Option UInt32
  | .qname _ name _ => some name
  | .runtimeQName name _ => some name
  | .multiname name _ _ => some name
  | _ => none

/-- The kind byte: the second one of a pair names an attribute. -/
def kindByte (plain attributeKind : UInt8) (isAttribute : Bool) : UInt8 :=
  if isAttribute then attributeKind else plain

def write : Multiname → Bytes
  | .qname space name isAttribute =>
    Write.u8 (kindByte 0x07 0x0D isAttribute) ++ Write.u30 space ++ Write.u30 name
  | .runtimeQName name isAttribute => Write.u8 (kindByte 0x0F 0x10 isAttribute) ++ Write.u30 name
  | .runtimeQNameLate isAttribute => Write.u8 (kindByte 0x11 0x12 isAttribute)
  | .multiname name set isAttribute =>
    Write.u8 (kindByte 0x09 0x0E isAttribute) ++ Write.u30 name ++ Write.u30 set
  | .multinameLate set isAttribute => Write.u8 (kindByte 0x1B 0x1C isAttribute) ++ Write.u30 set
  | .typeName base parameters =>
    Write.u8 0x1D ++ Write.u30 base ++ Write.counted Write.u30 parameters

/-- The rest of a multiname, after its kind byte. -/
def readKind (kind : UInt8) : Reader Multiname :=
  if kind = 0x07 ∨ kind = 0x0D then do
    let space ← u30
    let name ← u30
    pure (.qname space name (kind == 0x0D))
  else if kind = 0x0F ∨ kind = 0x10 then do
    let name ← u30
    pure (.runtimeQName name (kind == 0x10))
  else if kind = 0x11 ∨ kind = 0x12 then
    pure (.runtimeQNameLate (kind == 0x12))
  else if kind = 0x09 ∨ kind = 0x0E then do
    let name ← u30
    let set ← u30
    pure (.multiname name set (kind == 0x0E))
  else if kind = 0x1B ∨ kind = 0x1C then do
    let set ← u30
    pure (.multinameLate set (kind == 0x1C))
  else if kind = 0x1D then do
    let base ← u30
    let parameters ← counted u30
    pure (.typeName base parameters)
  else throw (.invalidMultinameKind kind)

def read : Reader Multiname := do
  let kind ← u8
  readKind kind

end Multiname

namespace Namespace

def write (n : Namespace) : Bytes := Write.u8 n.kind ++ Write.u30 n.name

def read : Reader Namespace := do
  let kind ← u8
  let name ← u30
  pure ⟨kind, name⟩

end Namespace

/-! ### Tables with an implicit entry -/

/-- A table is stored with its length, but without its first entry; a table of nothing but that entry
is stored as empty. -/
def writeTable {α : Type} (write : α → Bytes) (table : List α) : Bytes :=
  (if table.length ≤ 1 then Write.u30 0 else Write.length table.length)
    ++ (table.drop 1).flatMap write

def readTable {α : Type} (implicit : α) (r : Reader α) : Reader (List α) := do
  let length ← u30
  let stored ← times (length.toNat - 1) r
  pure (implicit :: stored)

namespace ConstantPool

/-- Nothing but the implicit entries. -/
def empty : ConstantPool where
  ints := [0]
  uints := [0]
  doubles := [0]
  strings := [""]
  namespaces := [⟨0, 0⟩]
  namespaceSets := [[]]
  multinames := [.runtimeQNameLate false]

def write (p : ConstantPool) : Bytes :=
  writeTable Write.s32 p.ints
    ++ writeTable Write.u30 p.uints
    ++ writeTable Write.d64 p.doubles
    ++ writeTable Write.string p.strings
    ++ writeTable Namespace.write p.namespaces
    ++ writeTable (Write.counted Write.u30) p.namespaceSets
    ++ writeTable Multiname.write p.multinames

def read : Reader ConstantPool := do
  let ints ← readTable 0 s32
  let uints ← readTable 0 u30
  let doubles ← readTable 0 u64
  let strings ← readTable "" Reader.string
  let namespaces ← readTable ⟨0, 0⟩ Namespace.read
  let namespaceSets ← readTable [] (counted u30)
  let multinames ← readTable (.runtimeQNameLate false) Multiname.read
  pure { ints, uints, doubles, strings, namespaces, namespaceSets, multinames }

/-! ### Looking up -/

def string (p : ConstantPool) (index : UInt32) : Except Error String :=
  match p.strings[index.toNat]? with
  | some text => .ok text
  | none => .error (.indexOutOfRange .strings index p.strings.length)

def multiname (p : ConstantPool) (index : UInt32) : Except Error Multiname :=
  match p.multinames[index.toNat]? with
  | some name => .ok name
  | none => .error (.indexOutOfRange .multinames index p.multinames.length)

/-- The local name of a multiname, when all that leads to it is there. -/
def localName? (p : ConstantPool) (index : UInt32) : Option String := do
  let entry ← p.multinames[index.toNat]?
  let name ← entry.name?
  p.strings[name.toNat]?

/-! ### Adding constants -/

/-- The index of a string, which is added unless an entry after the implicit one equals it. -/
def addString (text : String) : StateM ConstantPool UInt32 := fun p =>
  match (p.strings.drop 1).idxOf? text with
  | some position => (UInt32.ofNat (position + 1), p)
  | none => (UInt32.ofNat p.strings.length, { p with strings := p.strings ++ [text] })

/-- A new public name; names are never shared, though their strings are. -/
def addQName (text : String) : StateM ConstantPool UInt32 := do
  let name ← addString text
  modifyGet fun p =>
    (UInt32.ofNat p.multinames.length,
      { p with multinames := p.multinames ++ [.qname 0 name false] })

def addInt (n : Int32) : StateM ConstantPool Unit :=
  modify fun p => { p with ints := p.ints ++ [n] }

end ConstantPool
end PackedMovie.Abc
