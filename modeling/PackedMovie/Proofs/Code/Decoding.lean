import PackedMovie.Proofs.Code.Assembly

/-!
# Where decoded instructions stand

The instruction of a directive stands in the list where the directive stands in its own, at the
address up to which code had been assembled before it, and it has the directive's opcode and
arguments. A jump keeps the low 24 bits of its offset and their sign, which is the whole offset if it
is in their range.

Main statement: `decode_assemble_at`.
-/
namespace PackedMovie.Code

/-! ### Offsets of jumps -/

/-- The low 24 bits of a word, with the sign that the highest of them says. -/
def low24 (offset : Int32) : UInt32 := ⟨(offset.toBitVec.setWidth 24).signExtend 32⟩

theorem operands_jump (offset : Int32) : (Directive.jump offset).operands = [low24 offset] := by
  have hlow : (offset.toBitVec.setWidth 24).toInt =
      Int.bmod (offset.toUInt32.toNat % Nat.pow 2 24 : Nat) (Nat.pow 2 24) := by
    rw [BitVec.toInt_eq_toNat_bmod, BitVec.toNat_setWidth]
    rfl
  rw [Directive.operands, ← hlow]
  rfl

/-- The offset can be written in 24 bits, one of them for the sign. -/
def FitsBranch (offset : Int32) : Prop := -8388608 ≤ offset.toInt ∧ offset.toInt < 8388608

theorem low24_eq {offset : Int32} (h : FitsBranch offset) : low24 offset = offset.toUInt32 := by
  have hnat : offset.toBitVec.toNat < 4294967296 := offset.toBitVec.isLt
  have hint : offset.toBitVec.toInt =
      if 2 * offset.toBitVec.toNat < 4294967296 then (offset.toBitVec.toNat : Int)
      else (offset.toBitVec.toNat : Int) - 4294967296 := BitVec.toInt_eq_toNat_cond offset.toBitVec
  obtain ⟨hlow, hhigh⟩ : -8388608 ≤ offset.toBitVec.toInt ∧ offset.toBitVec.toInt < 8388608 := h
  have hsize : ((Nat.pow 2 24 : Nat) : Int) = 16777216 := rfl
  have hwhole : Int.bmod offset.toBitVec.toNat (Nat.pow 2 24) = offset.toBitVec.toInt := by
    rw [Int.bmod_def, hsize]
    split at hint <;> split <;> omega
  have hextend : (offset.toBitVec.setWidth 24).signExtend 32 = offset.toBitVec := by
    rw [BitVec.signExtend, BitVec.toInt_setWidth]
    exact (congrArg (BitVec.ofInt 32) hwhole).trans BitVec.ofInt_toInt
  rw [low24, hextend]
  rfl

/-! ### Addresses -/

theorem length_located (offset : Nat) (ds : List Directive) :
    (located offset ds).length = ds.length := by
  induction ds generalizing offset with
  | nil => rfl
  | cons d ds ih => rw [located, List.length_cons, List.length_cons, ih]

theorem getElem?_located (front : List Directive) (d : Directive) (back : List Directive) :
    (located 0 (front ++ d :: back))[front.length]? =
      some (d.instructionAt (assemble front).length) := by
  have hfront : (located 0 front).length = front.length := length_located 0 front
  rw [located_append, located, Nat.zero_add, ← hfront, List.getElem?_append_right (Nat.le_refl _),
    Nat.sub_self]
  rfl

theorem assemble_append_cons (front : List Directive) (d : Directive) (back : List Directive) :
    assemble (front ++ d :: back) =
      assemble front ++ d.opcodeByte :: (d.operandBytes ++ assemble back) := by
  rw [assemble, List.flatMap_append, List.flatMap_cons]
  rfl

/-- Assembled code is decoded to one instruction for each directive, in order. It has the address
and the opcode byte of the directive, and the directive's arguments as operands. A bare opcode byte
has to be one without operands. -/
theorem decode_assemble_at {ds : List Directive}
    (hops : ∀ byte, .op byte ∈ ds → (describe? byte).map Prod.snd = some .plain)
    (hlength : (assemble ds).length < UInt32.size) :
    ∃ is, decode (assemble ds) = .ok is ∧ is.length = ds.length ∧
      ∀ front d back, ds = front ++ d :: back → ∃ i, is[front.length]? = some i ∧
        i.address.toNat = (assemble front).length ∧
        (assemble ds)[i.address.toNat]? = some d.opcodeByte ∧ i.opcode = .ofByte d.opcodeByte ∧
        i.operands = d.operands ∧
        ∀ offset, d = .jump offset → i.operands = [low24 offset] ∧
          (FitsBranch offset → i.operands = [offset.toUInt32]) := by
  have hknown : ∀ d ∈ ds, d.IsKnown := by
    intro d hd
    cases d with
    | op byte => exact hops byte hd
    | _ => exact Directive.isKnown_of_ne_op (by simp)
  refine ⟨located 0 ds, decode_assemble hknown, length_located 0 ds, ?_⟩
  rintro front d back rfl
  have haddress : (UInt32.ofNat (assemble front).length).toNat = (assemble front).length := by
    apply UInt32.toNat_ofNat_of_lt'
    rw [assemble_append_cons, List.length_append] at hlength
    omega
  refine ⟨_, getElem?_located front d back, haddress, ?_, rfl, rfl, ?_⟩
  · rw [assemble_append_cons]
    simp [Directive.instructionAt, haddress]
  · rintro offset rfl
    have hoperands : (Directive.instructionAt (assemble front).length (.jump offset)).operands =
        [low24 offset] := operands_jump offset
    exact ⟨hoperands, fun hfits => by rw [hoperands, low24_eq hfits]⟩

/-- Two jumps, the second of which goes further than its operand can say. -/
def branching : List Directive :=
  [.getLocal0, .jump (-2), .op 0x02, .callProperty 300 1, .jump 0x01000005, .returnVoid]

theorem decode_assemble_at_branching :
    ((∀ byte, .op byte ∈ branching → (describe? byte).map Prod.snd = some .plain) ∧
      (assemble branching).length < UInt32.size) ∧
      ∃ is, decode (assemble branching) = .ok is ∧ is.length = 6 ∧
        (∃ i, is[1]? = some i ∧ i.address.toNat = 1 ∧ i.operands = [0xFFFFFFFE]) ∧
        ∃ i, is[4]? = some i ∧ i.address.toNat = 10 ∧ i.operands = [5] := by
  have hops : ∀ byte, .op byte ∈ branching → (describe? byte).map Prod.snd = some .plain := by
    intro byte hbyte
    simp only [branching, List.mem_cons, Directive.op.injEq, reduceCtorEq, List.not_mem_nil,
      or_false, false_or] at hbyte
    rw [hbyte]
    rfl
  have hlength : (assemble branching).length < UInt32.size := by decide +kernel
  obtain ⟨is, hdecode, hcount, hplaces⟩ := decode_assemble_at hops hlength
  refine ⟨⟨hops, hlength⟩, is, hdecode, hcount, ?_, ?_⟩
  · obtain ⟨i, hi, haddress, -, -, hoperands, -⟩ :=
      hplaces (branching.take 1) (.jump (-2)) (branching.drop 2) rfl
    exact ⟨i, hi, haddress.trans (by decide +kernel), hoperands.trans (by decide +kernel)⟩
  · obtain ⟨i, hi, haddress, -, -, hoperands, -⟩ :=
      hplaces (branching.take 4) (.jump 0x01000005) (branching.drop 5) rfl
    exact ⟨i, hi, haddress.trans (by decide +kernel), hoperands.trans (by decide +kernel)⟩

end PackedMovie.Code
