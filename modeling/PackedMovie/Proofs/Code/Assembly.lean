import PackedMovie.Code.Assembler
import PackedMovie.Code.Instruction
import PackedMovie.Proofs.Abc.Fields

/-!
# Assembled code read back

Decoding gives back every directive as one instruction, at the place where the directive was
assembled.

Main statement: `decode_assemble`.
-/
namespace PackedMovie.Code

open PackedMovie.Reader (Reads)

namespace Directive

/-- How the operands of a directive are laid out. A bare opcode byte stands for no operands. -/
def layout : Directive → Layout
  | .callProperty .. => .twoIndices
  | .pushByte _ => .oneByte
  | .pushString _ | .constructSuper _ => .oneIndex
  | .jump _ => .branch
  | _ => .plain

/-- The operands as words. Of a jump only the low 24 bits are kept, the highest of them for the
sign. -/
def operands : Directive → List UInt32
  | .callProperty index argCount => [index, argCount]
  | .pushByte value => [value.toUInt32]
  | .pushString index => [index]
  | .constructSuper argCount => [argCount]
  | .jump offset => [(Int32.ofInt (Int.bmod (offset.toUInt32.toNat % Nat.pow 2 24 : Nat)
      (Nat.pow 2 24))).toUInt32]
  | _ => []

/-- The opcode byte is known, and announces the operands that are written. -/
def IsKnown (d : Directive) : Prop := (describe? d.opcodeByte).map Prod.snd = some d.layout

instance : DecidablePred IsKnown := fun d =>
  inferInstanceAs (Decidable ((describe? d.opcodeByte).map Prod.snd = some d.layout))

def instructionAt (offset : Nat) (d : Directive) : Instruction :=
  ⟨UInt32.ofNat offset, .ofByte d.opcodeByte, d.operands⟩

/-- Only a bare opcode byte may be unknown. -/
theorem isKnown_of_ne_op {d : Directive} (h : ∀ byte, d ≠ .op byte) : d.IsKnown := by
  cases d with
  | op byte => exact absurd rfl (h byte)
  | _ => rfl

end Directive

/-! ### One instruction -/

theorem reads_kinds_nil : Reads (([] : List OperandKind).mapM OperandKind.read) [] [] :=
  Reads.pure []

theorem reads_kinds_cons {kind : OperandKind} {kinds : List OperandKind} {front back : Bytes}
    {operand : UInt32} {operands : List UInt32} (hkind : Reads kind.read front operand)
    (hkinds : Reads (kinds.mapM OperandKind.read) back operands) :
    Reads ((kind :: kinds).mapM OperandKind.read) (front ++ back) (operand :: operands) := by
  rw [List.mapM_cons]
  exact hkind.bind hkinds.bind_pure

theorem reads_operands (d : Directive) : Reads d.layout.read d.operandBytes d.operands := by
  have hindex (n : UInt32) : Reads (OperandKind.read .u30) (Abc.Write.u30 n) n := Abc.reads_u30 n
  have hone (n : UInt32) : Reads (Layout.read .oneIndex) (Abc.Write.u30 n) [n] := by
    have h := reads_kinds_cons (hindex n) reads_kinds_nil
    rwa [List.append_nil] at h
  cases d with
  | callProperty index argCount =>
    have h := reads_kinds_cons (hindex index) (reads_kinds_cons (hindex argCount) reads_kinds_nil)
    rwa [List.append_nil] at h
  | pushByte value =>
    have hbyte : Reads (OperandKind.read .u8) (Abc.Write.u8 value) value.toUInt32 :=
      (Reads.u8 value).map UInt8.toUInt32
    exact reads_kinds_cons hbyte reads_kinds_nil
  | pushString index => exact hone index
  | constructSuper argCount => exact hone argCount
  | jump offset =>
    have hbranch : Reads (OperandKind.read .s24) (Abc.Write.s24 offset) _ :=
      (Reads.s24 offset.toUInt32.toNat).map Int32.toUInt32
    have h := reads_kinds_cons hbranch reads_kinds_nil
    rwa [List.append_nil] at h
  | _ => exact reads_kinds_nil

theorem read_directive {d : Directive} (h : d.IsKnown) (offset : Nat) (rest : Bytes) :
    Instruction.read ⟨offset, d.bytes ++ rest⟩ =
      .ok (d.instructionAt offset) ⟨offset + d.bytes.length, rest⟩ := by
  obtain ⟨⟨name, layout⟩, hdescribe, hlayout⟩ := Option.map_eq_some_iff.1 h
  have hafter : Reads (Instruction.readAfter offset d.opcodeByte) d.operandBytes
      (d.instructionAt offset) := by
    unfold Instruction.readAfter
    rw [hdescribe]
    simp only at hlayout ⊢
    rw [hlayout]
    exact (reads_operands d).bind_pure
  have hread := (Reads.u8 d.opcodeByte).bind hafter offset rest
  exact hread

/-! ### Whole bodies -/

/-- The instructions of some directives, the first of which stands at `offset`. -/
def located (offset : Nat) : List Directive → List Instruction
  | [] => []
  | d :: rest => d.instructionAt offset :: located (offset + d.bytes.length) rest

theorem located_append (offset : Nat) (front back : List Directive) :
    located offset (front ++ back) =
      located offset front ++ located (offset + (assemble front).length) back := by
  induction front generalizing offset with
  | nil => rfl
  | cons d front ih =>
    have hlength : (assemble (d :: front)).length = d.bytes.length + (assemble front).length := by
      rw [assemble, List.flatMap_cons, List.length_append, assemble]
    rw [List.cons_append, located, located, ih, hlength, Nat.add_assoc, List.cons_append]

theorem next?_directive {d : Directive} (h : d.IsKnown) (offset : Nat) (rest : Bytes) :
    Stream.next? ⟨⟨offset, d.bytes ++ rest⟩, false⟩ =
      some (.ok (d.instructionAt offset), ⟨⟨offset + d.bytes.length, rest⟩, false⟩) := by
  unfold Stream.next?
  rw [read_directive h offset rest]
  rfl

theorem drain_assemble {ds : List Directive} (h : ∀ d ∈ ds, d.IsKnown) (offset : Nat) :
    (Stream.drain ⟨⟨offset, assemble ds⟩, false⟩).1 = (located offset ds).map .ok := by
  induction ds generalizing offset with
  | nil =>
    rw [Stream.drain]
    rfl
  | cons d ds ih =>
    have hnext := next?_directive (h d List.mem_cons_self) offset (assemble ds)
    have hrest := ih (fun d' hd' => h d' (List.mem_cons_of_mem d hd')) (offset + d.bytes.length)
    rw [assemble, List.flatMap_cons, ← assemble, Stream.drain, located, List.map_cons, ← hrest]
    split
    · rename_i hnone
      rw [hnext] at hnone
      cases hnone
    · rename_i hsome
      rw [hnext] at hsome
      cases hsome
      rfl

theorem mapM_ok {α ε : Type} (as : List α) :
    (as.map (Except.ok : α → Except ε α)).mapM id = .ok as := by
  induction as with
  | nil => rfl
  | cons a as ih =>
    rw [List.map_cons, List.mapM_cons, ih]
    rfl

theorem mapM_ok_append {α ε : Type} (as : List α) (items : List (Except ε α)) :
    (as.map (Except.ok : α → Except ε α) ++ items).mapM id = (as ++ ·) <$> items.mapM id := by
  rw [List.mapM_append, mapM_ok]
  cases items.mapM id <;> rfl

theorem mapM_eq_ok_iff {α ε : Type} {items : List (Except ε α)} {as : List α} :
    items.mapM id = .ok as ↔ items = as.map .ok := by
  constructor
  · intro h
    induction items generalizing as with
    | nil =>
      cases h
      rfl
    | cons item items ih =>
      rw [List.mapM_cons] at h
      cases item with
      | error e => cases h
      | ok a =>
        cases htail : items.mapM id with
        | error e =>
          rw [htail] at h
          cases h
        | ok tail =>
          rw [htail] at h
          cases h
          rw [ih htail, List.map_cons]
  · rintro rfl
    exact mapM_ok as

/-- Code that was assembled is decoded to one instruction for each directive. -/
theorem decode_assemble {ds : List Directive} (h : ∀ d ∈ ds, d.IsKnown) :
    decode (assemble ds) = .ok (located 0 ds) := by
  unfold decode Stream.items Stream.ofBytes Cursor.ofBytes
  rw [drain_assemble h, mapM_ok]

end PackedMovie.Code
