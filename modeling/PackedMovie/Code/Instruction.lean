import PackedMovie.Abc.Field
import PackedMovie.Code.Opcode

/-!
# Instructions and the bytes of a method body

An instruction is its address, its opcode and its operands as words; signed operands are kept in two's
complement. A method body is read instruction by instruction, and nothing after the first fault.

Main statement: reading an instruction leaves less to read (`Instruction.read_shortens`).
-/
namespace PackedMovie.Code

open PackedMovie.Abc (Error)

structure Instruction where
  address : UInt32
  opcode : Opcode
  operands : List UInt32
  deriving DecidableEq, Repr

namespace Instruction

def operand? (i : Instruction) (index : Nat) : Option UInt32 := i.operands[index]?

/-- The first operand; an instruction without operands stands for zero. -/
def firstOperand (i : Instruction) : UInt32 := (i.operand? 0).getD 0

/-- The same instruction elsewhere. -/
def moveTo (address : UInt32) (i : Instruction) : Instruction := { i with address }

/-- One line of a listing. -/
def text (i : Instruction) : String :=
  Numeral.column 6 i.address.toNat ++ ": " ++ i.opcode.name
    ++ String.join (i.operands.map fun operand => s!" {operand.toNat}")

end Instruction

def OperandKind.read : OperandKind → Abc.Reader UInt32
  | .u8 => UInt8.toUInt32 <$> Reader.u8
  | .u30 => Abc.Reader.u30
  | .s24 => Int32.toUInt32 <$> Reader.s24

def Layout.read : Layout → Abc.Reader (List UInt32)
  | .fixed kinds => kinds.mapM OperandKind.read
  | .lookupSwitch => do
    let default ← OperandKind.s24.read
    let count ← OperandKind.u30.read
    let cases ← Reader.times (count.toNat + 1) OperandKind.s24.read
    pure (default :: count :: cases)

/-- The rest of an instruction that began at `start` with an opcode byte. -/
def Instruction.readAfter (start : Nat) (byte : UInt8) : Abc.Reader Instruction :=
  match describe? byte with
  | none => throw (.invalidOpcode byte start)
  | some (_, layout) => do
    let operands ← layout.read
    pure ⟨UInt32.ofNat start, .ofByte byte, operands⟩

def Instruction.read : Abc.Reader Instruction := do
  let start ← get
  let byte ← PackedMovie.Reader.u8
  readAfter start.offset byte

theorem OperandKind.forward_read : ∀ kind : OperandKind, Reader.Forward kind.read
  | .u8 => Reader.Forward.u8.map _
  | .u30 => Abc.Reader.forward_u30
  | .s24 => Reader.Forward.s24.map _

theorem forward_mapM_read : ∀ kinds : List OperandKind, Reader.Forward (kinds.mapM OperandKind.read)
  | [] => by simpa using Reader.Forward.pure (ε := Error) ([] : List UInt32)
  | kind :: kinds => by
    rw [List.mapM_cons]
    exact kind.forward_read.bind fun _ => (forward_mapM_read kinds).bind fun _ => Reader.Forward.pure _

theorem Layout.forward_read : ∀ layout : Layout, Reader.Forward layout.read
  | .fixed kinds => forward_mapM_read kinds
  | .lookupSwitch => (OperandKind.forward_read _).bind fun _ => (OperandKind.forward_read _).bind
      fun _ => (Reader.Forward.times (OperandKind.forward_read _) _).bind fun _ => Reader.Forward.pure _

theorem Instruction.forward_readAfter (start : Nat) (byte : UInt8) :
    Reader.Forward (Instruction.readAfter start byte) := by
  unfold Instruction.readAfter
  split
  · exact Reader.Forward.throw _
  · exact (Layout.forward_read _).bind fun _ => Reader.Forward.pure _

theorem Instruction.read_shortens {c d : Cursor} {i : Instruction}
    (h : Instruction.read c = .ok i d) : d.rest.length < c.rest.length := by
  obtain ⟨_, _, hget, h⟩ := Reader.bind_eq_ok_iff.1 h
  cases hget
  obtain ⟨byte, _, hbyte, h⟩ := Reader.bind_eq_ok_iff.1 h
  have hle := (Instruction.forward_readAfter c.offset byte).length_le h
  obtain ⟨offset, rest⟩ := c
  cases rest with
  | nil => cases hbyte
  | cons b rest =>
    rw [Reader.u8_cons] at hbyte
    cases hbyte
    exact Nat.lt_succ_of_le hle

/-- What a body still holds, and whether reading it already failed. -/
structure Stream where
  cursor : Cursor
  failed : Bool
  deriving DecidableEq, Repr

namespace Stream

def ofBytes (code : Bytes) : Stream := ⟨.ofBytes code, false⟩

/-- The next instruction or the fault that ends the stream. -/
def next? (s : Stream) : Option (Except Error Instruction × Stream) :=
  if s.failed || s.cursor.isAtEnd then none
  else match Instruction.read s.cursor with
    | .ok i c => some (.ok i, ⟨c, false⟩)
    | .error e c => some (.error e, ⟨c, true⟩)

/-- A bound on the items a stream still has. -/
def bound (s : Stream) : Nat := if s.failed then 0 else s.cursor.rest.length + 1

theorem bound_lt_of_next? {s t : Stream} {item : Except Error Instruction}
    (h : s.next? = some (item, t)) : t.bound < s.bound := by
  obtain ⟨cursor, failed⟩ := s
  cases failed with
  | true => simp [next?] at h
  | false =>
    by_cases hend : cursor.isAtEnd
    · simp [next?, hend] at h
    · simp only [next?, hend, Bool.or_self, Bool.false_eq_true, ↓reduceIte] at h
      split at h
      · rename_i i c hread
        cases h
        have := Instruction.read_shortens hread
        simp [bound]
        omega
      · cases h
        simp [bound]

/-- Everything a stream gives, and the stream after it. -/
def drain (s : Stream) : List (Except Error Instruction) × Stream :=
  match _h : s.next? with
  | none => ([], s)
  | some (item, t) =>
    let rest := t.drain
    (item :: rest.1, rest.2)
termination_by s.bound
decreasing_by exact bound_lt_of_next? _h

def items (s : Stream) : List (Except Error Instruction) := s.drain.1

end Stream

/-- All instructions of a method body, or its first fault. -/
def decode (code : Bytes) : Except Error (List Instruction) :=
  (Stream.ofBytes code).items.mapM id

end PackedMovie.Code
