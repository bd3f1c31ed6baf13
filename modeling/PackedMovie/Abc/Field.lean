import PackedMovie.Abc.Error
import PackedMovie.Bytes.Base128
import PackedMovie.Text.Utf8

/-!
# The fields of an ABC file

Fixed-width words, integers in seven-bit groups, and strings with their length in front. Each kind of
field has a reader and a written form. A reader of a fixed width takes all its bytes or none; an
integer in groups is taken byte by byte.
-/
namespace PackedMovie.Abc

abbrev Reader := PackedMovie.Reader Error

/-- The longest run of groups an integer may have. -/
def maxGroups : Nat := 5

namespace Reader

open PackedMovie.Reader

/-- The groups of an integer that began at `start`, of which at most `count` may still follow. -/
def groups (start : Nat) : Nat → Reader Bytes
  | 0 => throw (.invalidInteger start)
  | count + 1 => do
    let byte ← u8
    if Base128.isLast byte then
      pure [byte]
    else
      let rest ← groups start count
      pure (byte :: rest)

def integer : Reader Bytes := do
  let start ← get
  groups start.offset maxGroups

/-- An unsigned integer, modulo 2³². -/
def u30 : Reader UInt32 := (fun gs => UInt32.ofNat (Base128.value gs)) <$> integer

/-- A signed integer. The sign is the last bit of a run shorter than five groups; five groups fill
the whole word. -/
def s32 : Reader Int32 := (fun gs : Bytes => Int32.ofInt
  (if gs.length < maxGroups then Base128.signedValue gs else Base128.value gs)) <$> integer

/-- A string: its length in bytes, then its bytes. -/
def string : Reader String := do
  let length ← u30
  let text ← bytes length.toNat
  pure (Utf8.decodeLossy text)

/-- A list: its length, then its members. -/
def counted {α : Type} (r : Reader α) : Reader (List α) := do
  let count ← u30
  times count.toNat r

theorem forward_groups (start : Nat) : ∀ count, Forward (groups start count)
  | 0 => Forward.throw _
  | count + 1 => by
    refine Forward.bind Forward.u8 fun byte => ?_
    split
    · exact Forward.pure _
    · exact (forward_groups start count).bind fun _ => Forward.pure _

theorem forward_u30 : Forward u30 :=
  (Forward.get.bind fun _ => forward_groups _ _).map _

end Reader

/-! ### Written forms -/

namespace Write

def u8 (n : UInt8) : Bytes := [n]
def u16 (n : UInt16) : Bytes := LittleEndian.encode 2 n.toNat
def u30 (n : UInt32) : Bytes := Base128.encode n.toNat
def s32 (n : Int32) : Bytes := Base128.encodeSigned n.toInt

/-- The low three bytes. -/
def s24 (n : Int32) : Bytes := LittleEndian.encode 3 n.toUInt32.toNat

def d64 (bits : UInt64) : Bytes := LittleEndian.encode 8 bits.toNat

/-- A length, modulo 2³². -/
def length (n : Nat) : Bytes := u30 (UInt32.ofNat n)

def string (text : String) : Bytes :=
  let encoded := Utf8.encode text
  length encoded.length ++ encoded

/-- A list: its length, then its members. -/
def counted {α : Type} (write : α → Bytes) (members : List α) : Bytes :=
  length members.length ++ members.flatMap write

end Write

/-! ### Streams of fields -/

inductive Field where
  | u8 (n : UInt8)
  | u16 (n : UInt16)
  | u30 (n : UInt32)
  | s24 (n : Int32)
  | s32 (n : Int32)
  | d64 (bits : UInt64)
  | bytes (raw : Bytes)
  | string (text : String)
  deriving DecidableEq, Repr

def Field.write : Field → Bytes
  | .u8 n => Write.u8 n
  | .u16 n => Write.u16 n
  | .u30 n => Write.u30 n
  | .s24 n => Write.s24 n
  | .s32 n => Write.s32 n
  | .d64 bits => Write.d64 bits
  | .bytes raw => raw
  | .string text => Write.string text

/-- What is asked of a stream: the kind of a field, and of raw bytes how many. Unsigned integers of 30
bits and of 32 are one kind. -/
inductive FieldKind where
  | u8
  | u16
  | u30
  | s24
  | s32
  | d64
  | bytes (count : Nat)
  | string
  deriving DecidableEq, Repr

def FieldKind.read : FieldKind → Reader Field
  | .u8 => Field.u8 <$> PackedMovie.Reader.u8
  | .u16 => Field.u16 <$> PackedMovie.Reader.u16
  | .u30 => Field.u30 <$> Reader.u30
  | .s24 => Field.s24 <$> PackedMovie.Reader.s24
  | .s32 => Field.s32 <$> Reader.s32
  | .d64 => Field.d64 <$> PackedMovie.Reader.u64
  | .bytes count => Field.bytes <$> PackedMovie.Reader.bytes count
  | .string => Field.string <$> Reader.string

/-- One read of a stream: what was asked for, where, and what came of it. -/
structure Attempt where
  kind : FieldKind
  before : Cursor
  outcome : Except Error Field
  after : Cursor

def FieldKind.attempt (k : FieldKind) (c : Cursor) : Attempt :=
  match k.read c with
  | .ok f d => ⟨k, c, .ok f, d⟩
  | .error e d => ⟨k, c, .error e, d⟩

/-- Reads one after another. Each goes on from where the one before it stopped, also if that failed. -/
def attempts (c : Cursor) : List FieldKind → List Attempt
  | [] => []
  | k :: kinds =>
    let a := k.attempt c
    a :: attempts a.after kinds

end PackedMovie.Abc
