import PackedMovie.Proofs.Code.Operands
import PackedMovie.Proofs.Code.Tiling
import PackedMovie.Resource.Walker

/-!
# The operands that are used

Three things are taken from operands: the name of a call, the index of the keymap's string, and the
place of a byte in the keymap. Each stands as a zero where the instruction has no operand, and the
place is cut down to a byte. In decoded code it makes no difference what is put in place of a missing
operand and how a larger word would be cut, since no operand is missing and the place is a byte.

Main statement: `operands_used`.
-/
namespace PackedMovie.Resource

open PackedMovie.Abc (Method Trait)
open PackedMovie.Code (Instruction decode describe? laidOut_of_decode mapM_eq_ok_iff)
open PackedMovie.Code.Stream (items_nil items_of_next?)

/-! ### Other ways of taking operands -/

/-- The first operand is taken if there is one. Without operands it may be any word. -/
def TakesFirst (operand : Instruction → UInt32) : Prop :=
  ∀ i first rest, i.operands = first :: rest → operand i = first

/-- A byte is kept. Larger words may be made any byte. -/
def Narrows (narrow : UInt32 → UInt8) : Prop := ∀ byte : UInt8, narrow byte.toUInt32 = byte

section

variable (operand : Instruction → UInt32) (narrow : UInt32 → UInt8)

/-- The keymap, where the index of its string is taken by `operand`. -/
def Keymap.extractBy (is : List Instruction) (strings : List String) : Except Error Keymap :=
  match firstWith? .pushString is with
  | none => .ok empty
  | some push =>
    match strings[(operand push).toNat]? with
    | some text => .ok ⟨text⟩
    | none => .error (.stringIndex (operand push) strings.length)

namespace Accessors

/-- The byte of an accessor, where its place is taken by `operand` and made a byte by `narrow`. -/
def pickedByteBy (keymap : Keymap) (m : Method) : Except Error (Option UInt8) := do
  let is ← ofAbc m.instructions
  match Keymap.firstWith? .pushByte is with
  | none => pure none
  | some push => some <$> keymap.byteAt (narrow (operand push))

def collectBy (methods : List Method) (keymap : Keymap) :
    Accessors → List Trait → Except Error Accessors
  | found, [] => .ok found
  | found, t :: rest =>
    match candidate? methods t with
    | none => collectBy methods keymap found rest
    | some m =>
      match pickedByteBy operand narrow keymap m with
      | .error e => .error e
      | .ok none => collectBy methods keymap found rest
      | .ok (some byte) => collectBy methods keymap (found.insert t.name byte) rest

def buildBy (traits : List Trait) (methods : List Method) (keymap : Keymap) :
    Except Error Accessors :=
  if keymap.isEmpty then .ok .empty
  else collectBy operand narrow methods keymap .empty traits

end Accessors

namespace Chain

/-- The unit in front, where the name of its call is taken by `operand`. -/
def unitBy? : List Instruction → Option (CallUnit × List Instruction)
  | i :: call :: rest =>
    if i.opcode = .getLocal0 ∧ call.opcode = .callProperty then
      some (⟨operand call, call.address⟩, rest)
    else none
  | _ => none

def nextUnitBy (is : List Instruction) : Option CallUnit × List Instruction :=
  match unitBy? operand (is.dropWhile isAdd) with
  | some (unit, rest) => (some unit, rest)
  | none => (none, is.dropWhile isAdd)

end Chain

theorem Keymap.extractBy_firstOperand : extractBy Instruction.firstOperand = extract := rfl

theorem Accessors.pickedByteBy_firstOperand :
    pickedByteBy Instruction.firstOperand UInt32.toUInt8 = pickedByte? := rfl

theorem Chain.nextUnitBy_firstOperand : nextUnitBy Instruction.firstOperand = nextUnit := rfl

/-! ### All of them agree on decoded code -/

variable {operand : Instruction → UInt32} {narrow : UInt32 → UInt8}
variable {code : Bytes} {is : List Instruction}

theorem TakesFirst.eq_firstOperand (h : TakesFirst operand) {i : Instruction} {first : UInt32}
    {rest : List UInt32} (hi : i.operands = first :: rest) : operand i = i.firstOperand := by
  simp [h i first rest hi, Instruction.firstOperand, Instruction.operand?, hi]

theorem mem_of_firstWith? {op : Code.Opcode} {push : Instruction}
    (h : Keymap.firstWith? op is = some push) : push ∈ is ∧ push.opcode = op := by
  constructor
  · exact List.mem_of_find?_eq_some h
  · simpa using List.find?_some h

theorem extractBy_eq (hoperand : TakesFirst operand) (hcode : decode code = .ok is)
    (strings : List String) : Keymap.extractBy operand is strings = Keymap.extract is strings := by
  rw [← Keymap.extractBy_firstOperand]
  unfold Keymap.extractBy
  cases hfirst : Keymap.firstWith? .pushString is with
  | none => rfl
  | some push =>
    obtain ⟨hpush, hopcode⟩ := mem_of_firstWith? hfirst
    obtain ⟨index, hindex⟩ := (laidOut_of_decode hcode push hpush).pushString hopcode
    simp only [hoperand.eq_firstOperand hindex]

theorem laidOut_of_instructions {m : Method} (h : m.instructions = .ok is) :
    ∀ i ∈ is, i.IsLaidOut := by
  unfold Method.instructions at h
  cases hbody : m.body with
  | none =>
    rw [hbody] at h
    cases h
    simp
  | some body =>
    rw [hbody] at h
    exact laidOut_of_decode h

theorem pickedByteBy_eq (hoperand : TakesFirst operand) (hnarrow : Narrows narrow)
    (keymap : Keymap) (m : Method) :
    Accessors.pickedByteBy operand narrow keymap m = Accessors.pickedByte? keymap m := by
  rw [← Accessors.pickedByteBy_firstOperand]
  unfold Accessors.pickedByteBy
  cases hcode : m.instructions with
  | error e => rfl
  | ok is =>
    simp only [ofAbc, Bind.bind, Except.bind]
    cases hfirst : Keymap.firstWith? .pushByte is with
    | none => rfl
    | some push =>
      obtain ⟨hpush, hopcode⟩ := mem_of_firstWith? hfirst
      obtain ⟨byte, hbyte⟩ := (laidOut_of_instructions hcode push hpush).pushByte hopcode
      -- Only of a byte do the two ways of narrowing give the same.
      have hfirstOperand : push.firstOperand = byte.toUInt32 := by
        simp [Instruction.firstOperand, Instruction.operand?, hbyte]
      simp [hoperand.eq_firstOperand hbyte, hfirstOperand, hnarrow byte]

theorem collectBy_eq (hoperand : TakesFirst operand) (hnarrow : Narrows narrow)
    (methods : List Method) (keymap : Keymap) (found : Accessors) (traits : List Trait) :
    Accessors.collectBy operand narrow methods keymap found traits =
      Accessors.collect methods keymap found traits := by
  induction traits generalizing found with
  | nil => rfl
  | cons t rest ih =>
    rw [Accessors.collectBy, Accessors.collect]
    cases Accessors.candidate? methods t with
    | none => exact ih found
    | some m =>
      simp only [pickedByteBy_eq hoperand hnarrow keymap m]
      cases Accessors.pickedByte? keymap m with
      | error e => rfl
      | ok picked => cases picked <;> exact ih _

theorem buildBy_eq (hoperand : TakesFirst operand) (hnarrow : Narrows narrow)
    (traits : List Trait) (methods : List Method) (keymap : Keymap) :
    Accessors.buildBy operand narrow traits methods keymap =
      Accessors.build traits methods keymap := by
  unfold Accessors.buildBy Accessors.build
  rw [collectBy_eq hoperand hnarrow]

theorem unitBy?_eq (hoperand : TakesFirst operand) (his : ∀ i ∈ is, i.IsLaidOut) :
    Chain.unitBy? operand is = Chain.unitBy? Instruction.firstOperand is := by
  match is, his with
  | [], _ => rfl
  | [_], _ => rfl
  | i :: call :: rest, his =>
    simp only [Chain.unitBy?]
    by_cases hopcodes : i.opcode = .getLocal0 ∧ call.opcode = .callProperty
    · have hcall := his call (by simp)
      obtain ⟨name, argCount, hoperands⟩ := hcall.callProperty hopcodes.2
      rw [hoperand.eq_firstOperand hoperands]
    · rw [if_neg hopcodes, if_neg hopcodes]

theorem nextUnitBy_eq (hoperand : TakesFirst operand) (his : ∀ i ∈ is, i.IsLaidOut) :
    Chain.nextUnitBy operand is = Chain.nextUnit is := by
  have hdrop : ∀ i ∈ is.dropWhile Chain.isAdd, i.IsLaidOut := by
    intro i hi
    exact his i ((List.dropWhile_sublist _).mem hi)
  rw [← Chain.nextUnitBy_firstOperand, Chain.nextUnitBy, Chain.nextUnitBy,
    unitBy?_eq hoperand hdrop]

end

/-- Decoded instructions have just the operands of their layout, each in its range; so a call has a
name and a count of arguments, and a push has one operand, which is a byte where a byte is pushed.
Whatever stands in place of missing operands, and however words beyond a byte are cut, the keymap, the
accessors and the units met from any place on are the same. -/
theorem operands_used {code : Bytes} {is : List Instruction} (hcode : decode code = .ok is) :
    (∀ i ∈ is, (∃ name layout, describe? i.opcode.toByte = some (name, layout) ∧
        layout.Shapes i.operands) ∧
      (i.opcode = .callProperty → ∃ name argCount, i.operands = [name, argCount]) ∧
      (i.opcode = .pushByte → ∃ byte : UInt8, i.operands = [byte.toUInt32]) ∧
      (i.opcode = .pushString → ∃ index, i.operands = [index])) ∧
    ∀ operand narrow, TakesFirst operand → Narrows narrow →
      (∀ strings, Keymap.extractBy operand is strings = Keymap.extract is strings) ∧
      (∀ traits methods keymap, Accessors.buildBy operand narrow traits methods keymap =
        Accessors.build traits methods keymap) ∧
      ∀ ahead, ahead <:+ is → Chain.nextUnitBy operand ahead = Chain.nextUnit ahead := by
  have his := laidOut_of_decode hcode
  constructor
  · intro i hi
    obtain ⟨name, layout, hdescribe, hadmits⟩ := his i hi
    exact ⟨⟨name, layout, hdescribe, hadmits.shapes⟩, (his i hi).callProperty,
      (his i hi).pushByte, (his i hi).pushString⟩
  · intro operand narrow hoperand hnarrow
    refine ⟨extractBy_eq hoperand hcode, buildBy_eq hoperand hnarrow, ?_⟩
    intro ahead hahead
    exact nextUnitBy_eq hoperand fun i hi => his i (hahead.mem hi)

/-- A switch with two cases, a byte and a string that are pushed, and a unit. -/
def switching : Bytes :=
  [0x1B, 0x05, 0x00, 0x00, 0x01, 0xFC, 0xFF, 0xFF, 0x02, 0x00, 0x80, 0x24, 0xC8, 0x2C, 0x03,
    0xD0, 0x46, 0xAC, 0x02, 0x01]

def switchingInstructions : List Instruction :=
  [⟨0, .other 0x1B, [5, 1, 0xFFFFFFFC, 0xFF800002]⟩, ⟨11, .pushByte, [200]⟩,
    ⟨13, .pushString, [3]⟩, ⟨15, .getLocal0, []⟩, ⟨16, .callProperty, [300, 1]⟩]

theorem decode_switching : decode switching = .ok switchingInstructions := by
  have hswitch : (Code.Stream.ofBytes switching).next? =
      some (.ok ⟨0, .other 0x1B, [5, 1, 0xFFFFFFFC, 0xFF800002]⟩, ⟨⟨11, switching.drop 11⟩, false⟩) := by
    decide +kernel
  have hbyte : Code.Stream.next? ⟨⟨11, switching.drop 11⟩, false⟩ =
      some (.ok ⟨11, .pushByte, [200]⟩, ⟨⟨13, switching.drop 13⟩, false⟩) := rfl
  have hstring : Code.Stream.next? ⟨⟨13, switching.drop 13⟩, false⟩ =
      some (.ok ⟨13, .pushString, [3]⟩, ⟨⟨15, switching.drop 15⟩, false⟩) := rfl
  have hself : Code.Stream.next? ⟨⟨15, switching.drop 15⟩, false⟩ =
      some (.ok ⟨15, .getLocal0, []⟩, ⟨⟨16, switching.drop 16⟩, false⟩) := rfl
  have hcall : Code.Stream.next? ⟨⟨16, switching.drop 16⟩, false⟩ =
      some (.ok ⟨16, .callProperty, [300, 1]⟩, ⟨⟨20, []⟩, false⟩) := rfl
  rw [decode, mapM_eq_ok_iff, items_of_next? hswitch, items_of_next? hbyte,
    items_of_next? hstring, items_of_next? hself, items_of_next? hcall, items_nil]
  rfl

/-- An accessor whose place is beyond any short keymap. -/
def switchingMethod : Method := (Method.empty.withRest true).withBody 2 switching

theorem build_switching : Accessors.build [.ofMethod 7 0] [switchingMethod] ⟨"xyz"⟩ =
    .error (.keymapIndex 200 3) := by
  have hcode : switchingMethod.instructions = .ok switchingInstructions := decode_switching
  have hpicked : Accessors.pickedByte? ⟨"xyz"⟩ switchingMethod = .error (.keymapIndex 200 3) := by
    simp only [Accessors.pickedByte?, hcode]
    rfl
  have hcandidate : Accessors.candidate? [switchingMethod] (.ofMethod 7 0) = some switchingMethod :=
    rfl
  have htext : ¬ (Keymap.mk "xyz").isEmpty = true := by decide
  rw [Accessors.build, if_neg htext, Accessors.collect]
  simp only [hcandidate, hpicked]

/-- All bits set where there is no operand. -/
def operandOrOnes (i : Instruction) : UInt32 := i.operands.headD 0xFFFFFFFF

/-- The largest byte for all words beyond a byte. -/
def saturate (n : UInt32) : UInt8 := if n < 256 then n.toUInt8 else 255

theorem operands_used_switching :
    (decode switching = .ok switchingInstructions ∧ TakesFirst operandOrOnes ∧
      Narrows saturate) ∧
      (∃ name layout, describe? 0x1B = some (name, layout) ∧
        layout.Shapes [5, 1, 0xFFFFFFFC, 0xFF800002]) ∧
      Keymap.extractBy operandOrOnes switchingInstructions ["", "a", "b", "xyz"] = .ok ⟨"xyz"⟩ ∧
      Chain.nextUnitBy operandOrOnes (switchingInstructions.drop 3) = (some ⟨300, 16⟩, []) ∧
      Accessors.buildBy operandOrOnes saturate [.ofMethod 7 0] [switchingMethod] ⟨"xyz"⟩ =
        .error (.keymapIndex 200 3) := by
  have htakes : TakesFirst operandOrOnes := by
    intro i first rest hoperands
    rw [operandOrOnes, hoperands, List.headD_cons]
  have hnarrows : Narrows saturate := by
    intro byte
    have hbyte : byte.toUInt32 < 256 := by
      simpa [UInt32.lt_iff_toNat_lt] using byte.toNat_lt
    simp [saturate, hbyte]
  obtain ⟨hshapes, huses⟩ := operands_used decode_switching
  obtain ⟨hextract, hbuild, hnext⟩ := huses operandOrOnes saturate htakes hnarrows
  refine ⟨⟨decode_switching, htakes, hnarrows⟩, ?_, (hextract _).trans rfl, ?_,
    (hbuild _ _ _).trans build_switching⟩
  · exact (hshapes _ List.mem_cons_self).1
  · exact (hnext _ (List.drop_suffix 3 _)).trans rfl

end PackedMovie.Resource
