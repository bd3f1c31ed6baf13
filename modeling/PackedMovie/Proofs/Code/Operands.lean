import Mathlib.Data.List.Forall2
import PackedMovie.Proofs.Code.Decoding

/-!
# The operands of decoded instructions

A decoded instruction is in the instruction set, and its operands are those that its layout asks for:
as many, a byte where a byte is read, and a signed offset of 24 bits where such an offset is read.

Main statements: `laidOut_of_decode`, `Layout.Admits.shapes`.
-/
namespace PackedMovie.Code

open PackedMovie.Reader (Yields)

/-- What can be read as an operand of the kind. -/
def OperandKind.Admits : OperandKind → UInt32 → Prop
  | .u8, operand => ∃ byte : UInt8, operand = byte.toUInt32
  | .u30, _ => True
  | .s24, operand => FitsBranch operand.toInt32

/-- What can be read as the operands of an instruction. -/
inductive Layout.Admits : Layout → List UInt32 → Prop
  | fixed {kinds : List OperandKind} {operands : List UInt32} :
      List.Forall₂ OperandKind.Admits kinds operands → Admits (.fixed kinds) operands
  | lookupSwitch {default count : UInt32} {cases : List UInt32} :
      OperandKind.s24.Admits default → cases.length = count.toNat + 1 →
      (∀ offset ∈ cases, OperandKind.s24.Admits offset) →
      Admits .lookupSwitch (default :: count :: cases)

theorem fitsBranch_bmod (n : Nat) :
    FitsBranch (Int32.ofInt (Int.bmod (n : Int) (Nat.pow 2 24))) := by
  have hsize : ((Nat.pow 2 24 : Nat) : Int) = 16777216 := rfl
  have hlow := Int.le_bmod (x := n) (m := Nat.pow 2 24) (by decide)
  have hhigh := Int.bmod_lt (x := n) (m := Nat.pow 2 24) (by decide)
  rw [hsize] at hlow hhigh
  have hwhole : (Int32.ofInt (Int.bmod (n : Int) (Nat.pow 2 24))).toInt =
      Int.bmod (n : Int) (Nat.pow 2 24) := by
    have hwide : (Int32.size : Int) = 4294967296 := rfl
    rw [Int32.toInt_ofInt]
    exact Int.bmod_eq_of_le_mul_two (by omega) (by omega)
  rw [FitsBranch, hwhole]
  omega

theorem OperandKind.yields : ∀ kind : OperandKind, Yields kind.read kind.Admits
  | .u8 => ((Yields.trivial Reader.u8).mono fun byte _ => ⟨byte, rfl⟩).map
  | .u30 => Yields.trivial _
  | .s24 => by
    refine Yields.map (Yields.map ((Yields.trivial (Reader.word 3)).mono fun n _ => ?_))
    change FitsBranch (Int32.toUInt32 _).toInt32
    rw [Int32.toInt32_toUInt32]
    exact fitsBranch_bmod n

theorem yields_kinds (kinds : List OperandKind) :
    Yields (kinds.mapM OperandKind.read) (List.Forall₂ OperandKind.Admits kinds) := by
  induction kinds with
  | nil => exact Yields.pure .nil
  | cons kind kinds ih =>
    rw [List.mapM_cons]
    exact kind.yields.bind fun _ hkind => ih.bind fun _ hkinds => Yields.pure (.cons hkind hkinds)

theorem Layout.yields : ∀ layout : Layout, Yields layout.read layout.Admits
  | .fixed kinds => (yields_kinds kinds).mono fun _ h => .fixed h
  | .lookupSwitch => (OperandKind.yields .s24).bind fun _ hdefault =>
      (Yields.trivial _).bind fun count _ =>
        ((OperandKind.yields .s24).times (count.toNat + 1)).bind fun _ hcases =>
          Yields.pure (.lookupSwitch hdefault hcases.1 hcases.2)

/-- The opcode is in the instruction set, and its layout admits the operands. -/
def Instruction.IsLaidOut (i : Instruction) : Prop :=
  ∃ name layout, describe? i.opcode.toByte = some (name, layout) ∧ layout.Admits i.operands

theorem Instruction.yields_read : Yields Instruction.read IsLaidOut := by
  refine (Yields.trivial _).bind fun start _ => (Yields.trivial _).bind fun byte _ => ?_
  unfold readAfter
  cases hdescribe : describe? byte with
  | none => exact Yields.throw _ _
  | some info =>
    obtain ⟨name, layout⟩ := info
    refine layout.yields.bind fun operands hoperands => Yields.pure ⟨name, layout, ?_, hoperands⟩
    rw [Opcode.toByte_ofByte]
    exact hdescribe

theorem Stream.next?_yields {P : Instruction → Prop} (h : Yields Instruction.read P) {s t : Stream}
    {i : Instruction} (hnext : s.next? = some (.ok i, t)) : P i := by
  unfold next? at hnext
  split at hnext
  · cases hnext
  · split at hnext
    · rename_i j d hread
      cases hnext
      exact h _ _ _ hread
    · cases hnext

/-- Whatever holds of all that is read as an instruction holds of the items of a stream. -/
theorem Stream.items_yield {P : Instruction → Prop} (h : Yields Instruction.read P) (s : Stream) :
    ∀ i, .ok i ∈ s.items → P i := by
  unfold items
  fun_induction drain s with
  | case1 s hend => simp
  | case2 s item t hnext rest ih =>
    intro i hi
    rcases List.mem_cons.1 hi with rfl | hi
    · exact next?_yields h hnext
    · exact ih i hi

theorem laidOut_of_decode {code : Bytes} {is : List Instruction} (h : decode code = .ok is) :
    ∀ i ∈ is, i.IsLaidOut := by
  intro i hi
  refine Stream.items_yield Instruction.yields_read (Stream.ofBytes code) i ?_
  rw [mapM_eq_ok_iff.1 h]
  exact List.mem_map_of_mem hi

theorem Instruction.IsLaidOut.admits {i : Instruction} (h : i.IsLaidOut) {name : String}
    {layout : Layout} (hopcode : describe? i.opcode.toByte = some (name, layout)) :
    layout.Admits i.operands := by
  obtain ⟨name', layout', hdescribe, hadmits⟩ := h
  rw [hopcode] at hdescribe
  cases hdescribe
  exact hadmits

/-- What is pushed as a byte is a byte. -/
theorem Instruction.IsLaidOut.pushByte {i : Instruction} (h : i.IsLaidOut)
    (hopcode : i.opcode = .pushByte) : ∃ byte : UInt8, i.operands = [byte.toUInt32] := by
  have hadmits : Layout.oneByte.Admits i.operands := h.admits (by rw [hopcode]; rfl)
  generalize i.operands = operands at hadmits ⊢
  cases hadmits with
  | fixed hkinds =>
    cases hkinds with
    | cons hbyte hnone =>
      cases hnone
      obtain ⟨byte, rfl⟩ := hbyte
      exact ⟨byte, rfl⟩

theorem Instruction.IsLaidOut.pushString {i : Instruction} (h : i.IsLaidOut)
    (hopcode : i.opcode = .pushString) : ∃ index, i.operands = [index] := by
  have hadmits : Layout.oneIndex.Admits i.operands := h.admits (by rw [hopcode]; rfl)
  generalize i.operands = operands at hadmits ⊢
  cases hadmits with
  | fixed hkinds =>
    cases hkinds with
    | cons _ hnone =>
      cases hnone
      exact ⟨_, rfl⟩

theorem Instruction.IsLaidOut.callProperty {i : Instruction} (h : i.IsLaidOut)
    (hopcode : i.opcode = .callProperty) : ∃ index argCount, i.operands = [index, argCount] := by
  have hadmits : Layout.twoIndices.Admits i.operands := h.admits (by rw [hopcode]; rfl)
  generalize i.operands = operands at hadmits ⊢
  cases hadmits with
  | fixed hkinds =>
    cases hkinds with
    | cons _ hkinds =>
      cases hkinds with
      | cons _ hnone =>
        cases hnone
        exact ⟨_, _, rfl⟩

/-! ### Places and ranges -/

/-- In which range operands of the kind are. -/
def OperandKind.InRange : OperandKind → UInt32 → Prop
  | .u8, operand => operand.toNat < 256
  | .u30, _ => True
  | .s24, operand => FitsBranch operand.toInt32

/-- Just the operands that the layout asks for, each in the range of its kind. All operands of a
`lookupSwitch` but its count are offsets. -/
def Layout.Shapes : Layout → List UInt32 → Prop
  | .fixed kinds, operands => operands.length = kinds.length ∧
      ∀ (n : Nat) (kind : OperandKind) (operand : UInt32), kinds[n]? = some kind →
        operands[n]? = some operand → kind.InRange operand
  | .lookupSwitch, operands => ∃ count, operands[1]? = some count ∧
      operands.length = count.toNat + 3 ∧
      ∀ (n : Nat) (operand : UInt32), n ≠ 1 → operands[n]? = some operand →
        FitsBranch operand.toInt32

theorem OperandKind.Admits.inRange {kind : OperandKind} {operand : UInt32}
    (h : kind.Admits operand) : kind.InRange operand := by
  cases kind with
  | u8 =>
    obtain ⟨byte, rfl⟩ := h
    have hbyte := byte.toNat_lt
    simpa [InRange] using hbyte
  | u30 => trivial
  | s24 => exact h

theorem Layout.Admits.shapes {layout : Layout} {operands : List UInt32}
    (h : layout.Admits operands) : layout.Shapes operands := by
  cases h with
  | @fixed kinds operands hkinds =>
    refine ⟨hkinds.length_eq.symm, ?_⟩
    intro n kind operand hkind hoperand
    obtain ⟨hn, rfl⟩ := List.getElem?_eq_some_iff.1 hkind
    obtain ⟨hn', rfl⟩ := List.getElem?_eq_some_iff.1 hoperand
    exact (hkinds.get hn hn').inRange
  | @lookupSwitch default count cases hdefault hcount hcases =>
    refine ⟨count, rfl, by simp [hcount], ?_⟩
    intro n operand hn hoperand
    match n with
    | 0 =>
      cases hoperand
      exact hdefault
    | 1 => exact absurd rfl hn
    | n + 2 => exact hcases operand (List.mem_of_getElem? hoperand)

end PackedMovie.Code
