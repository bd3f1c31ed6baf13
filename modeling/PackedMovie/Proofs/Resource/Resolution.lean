import PackedMovie.Proofs.Dictionary
import PackedMovie.Proofs.Resource.Packing
import PackedMovie.Proofs.Resource.Spelling
import PackedMovie.Resource.Unpacking

/-!
# What a packed class resolves to

The accessors of a packed class pick the bytes of its keymap, so the chains of its constructor spell
what they were made from, and the resolution finds the order that was hidden.

Main statement: `resolve_program`.
-/
namespace PackedMovie.Resource.Packing

open PackedMovie.Abc (Method Program Trait)
open PackedMovie.Code (Directive Instruction decode_assemble located located_append)
open PackedMovie.Resource.Chain
open PackedMovie.Resource.Order

/-! ### Accessors -/

theorem candidate?_ofMethod {methods : List Method} {index : UInt32} {m : Method}
    (h : methods[index.toNat]? = some m) (hm : Accessors.isAccessor m = true) (name : UInt32) :
    Accessors.candidate? methods (Trait.ofMethod name index) = some m := by
  simp [Accessors.candidate?, Trait.ofMethod, Trait.method?, h, hm]

theorem isAccessor_accessor (i : Nat) : Accessors.isAccessor (accessor i) = true := by
  have hflag : Abc.hasFlag (0 ||| Method.needRestFlag) Method.needRestFlag = true := by decide
  exact Bool.and_eq_true_iff.2 ⟨hflag, rfl⟩

theorem pickedByte?_accessor {keymap : Keymap} {i : Nat} {byte : UInt8} (hi : i < 256)
    (hbyte : keymap.bytes[i]? = some byte) :
    Accessors.pickedByte? keymap (accessor i) = .ok (some byte) := by
  have hinstructions : (accessor i).instructions = .ok (located 0
      [.getLocal0, .pushScope, .pushByte (UInt8.ofNat i), .returnValue]) :=
    decode_assemble (by simp [Directive.isKnown_of_ne_op])
  have hindex : (UInt8.ofNat i).toNat = i := UInt8.toNat_ofNat_of_lt' hi
  have hpick : keymap.byteAt (UInt8.ofNat i).toUInt32.toUInt8 = .ok byte := by
    rw [UInt8.toUInt8_toUInt32, Keymap.byteAt, hindex, hbyte]
  unfold Accessors.pickedByte?
  rw [hinstructions]
  change some <$> keymap.byteAt (UInt8.ofNat i).toUInt32.toUInt8 = _
  rw [hpick]
  rfl

/-- The accessors from a position on are entered with the bytes of the keymap from there on. -/
theorem collect_accessors (keymap : Keymap) {methods : List Method} (hsize : keymap.size ≤ 256)
    (hmethods : ∀ i < keymap.size, methods[i]? = some (accessor i)) {bytes : Bytes} {start : Nat}
    (hbytes : keymap.bytes.drop start = bytes) (found : Accessors) :
    Accessors.collect methods keymap found
      (List.zipWith Trait.ofMethod (Program.indices (1 + start) bytes.length)
        (Program.indices start bytes.length)) =
      .ok (found.insertAll ((Program.indices (1 + start) bytes.length).zip bytes)) := by
  induction bytes generalizing start found with
  | nil => rfl
  | cons byte bytes ih =>
    have hbyte : keymap.bytes[start]? = some byte := by
      rw [← List.head?_drop, hbytes, List.head?_cons]
    have hrest : keymap.bytes.drop (start + 1) = bytes := by
      rw [← List.tail_drop, hbytes, List.tail_cons]
    have hstart : start < keymap.size := (List.getElem?_eq_some_iff.1 hbyte).1
    have hmethod : methods[(UInt32.ofNat start).toNat]? = some (accessor start) := by
      have hindex : (UInt32.ofNat start).toNat = start :=
        UInt32.toNat_ofNat_of_lt' (Nat.lt_of_lt_of_le hstart (Nat.le_trans hsize (by decide)))
      rw [hindex, hmethods start hstart]
    have hcandidate := candidate?_ofMethod hmethod (isAccessor_accessor start)
      (UInt32.ofNat (1 + start))
    have hpicked := pickedByte?_accessor (Nat.lt_of_lt_of_le hstart hsize) hbyte
    rw [List.length_cons, Program.indices_succ, Program.indices_succ, List.zipWith_cons_cons,
      List.zip_cons_cons, Dictionary.insertAll_cons, Accessors.collect]
    simp only [hcandidate, hpicked]
    exact ih hrest _

variable {p : Packing}

/-- From the names of the accessors to the bytes that they pick. -/
def picks (p : Packing) : Accessors :=
  .ofList ((Program.indices 1 p.letters.length).zip p.letters)

theorem isEmpty_keymap (h : p.WellFormed) : Keymap.isEmpty ⟨p.keymap⟩ = false := by
  simp [Keymap.isEmpty, h.keymap_ne]

theorem build_traits (h : p.WellFormed) {methods : List Method}
    (hmethods : ∀ i < p.letters.length, methods[i]? = some (accessor i)) :
    Accessors.build p.traits methods ⟨p.keymap⟩ = .ok p.picks := by
  unfold Accessors.build traits
  rw [isEmpty_keymap h, if_neg (by decide), h.accessorNames]
  exact collect_accessors ⟨p.keymap⟩ h.keymap_length hmethods (List.drop_zero) .empty

theorem nodup_indices {start count : Nat} (h : start + count ≤ UInt32.size) :
    (Program.indices start count).Nodup := by
  rw [Program.indices, List.Nodup, List.pairwise_map]
  apply List.Pairwise.imp_of_mem _ List.nodup_range'
  intro i j hi hj hne heq
  apply hne
  rw [List.mem_range'_1] at hi hj
  have hij := congrArg UInt32.toNat heq
  rwa [UInt32.toNat_ofNat_of_lt' (by omega), UInt32.toNat_ofNat_of_lt' (by omega)] at hij

theorem getElem?_indices {start count i : Nat} (h : i < count) :
    (Program.indices start count)[i]? = some (UInt32.ofNat (start + i)) := by
  rw [Program.indices, List.getElem?_map, List.getElem?_range' h, Nat.one_mul]
  rfl

theorem get?_picks (h : p.WellFormed) {b : UInt8} (hb : b ∈ p.letters) :
    p.picks.get? (p.nameOf (Program.indices 1 p.accessorNames.length) b) = some b := by
  have hletter := h.position b hb
  obtain ⟨hlt, _⟩ := List.getElem?_eq_some_iff.1 hletter
  have hlength := h.keymap_length
  have hname : (Program.indices 1 p.letters.length)[p.position b]? =
      some (UInt32.ofNat (1 + p.position b)) := getElem?_indices hlt
  have hsize : UInt32.size = 4294967296 := rfl
  rw [nameOf, h.accessorNames, hname]
  apply Dictionary.get?_insertAll_of_mem
  · rw [List.map_fst_zip (Nat.le_of_eq (Program.length_indices 1 _))]
    exact nodup_indices (by omega)
  · apply List.mem_of_getElem? (i := p.position b)
    rw [List.getElem?_zip_eq_some]
    exact ⟨hname, hletter⟩

/-! ### Chains -/

section

variable {accessors : Accessors} {nameOf : UInt8 → UInt32}

theorem isUnit_call (name : UInt32) (offset : Nat) :
    IsUnit (located offset (call name)) ⟨name, UInt32.ofNat (offset + 1)⟩ := IsUnit.mk rfl rfl

theorem spells_call {name : UInt32} {b : UInt8} (h : accessors.get? name = some b) (offset : Nat) :
    Spells accessors (located offset (call name)) [b] := by
  have hcode := Spells.unit (isUnit_call name offset) h Spells.nil
  rwa [List.append_nil] at hcode

theorem spells_joined {bytes : Bytes} (h : ∀ b ∈ bytes, accessors.get? (nameOf b) = some b)
    (offset : Nat) :
    Spells accessors (located offset (bytes.flatMap fun b => call (nameOf b) ++ [.add])) bytes := by
  induction bytes generalizing offset with
  | nil => exact Spells.nil
  | cons b bytes ih =>
    have hfirst := spells_call (h b List.mem_cons_self) offset
    have hrest := ih fun b' hb' => h b' (List.mem_cons_of_mem b hb')
    rw [List.flatMap_cons, List.append_assoc, located_append]
    exact hfirst.append (Spells.add rfl (hrest _))

theorem spells_chain {bytes : Bytes} (h : ∀ b ∈ bytes, accessors.get? (nameOf b) = some b)
    (offset : Nat) : Spells accessors (located offset (chain nameOf bytes)) bytes := by
  cases bytes with
  | nil => exact Spells.nil
  | cons b bytes =>
    have hfirst := spells_call (h b List.mem_cons_self) offset
    have hrest := spells_joined fun b' hb' => h b' (List.mem_cons_of_mem b hb')
    rw [chain, located_append]
    exact hfirst.append (hrest _)

theorem beginsUnit_chain {bytes : Bytes} (h : bytes ≠ []) (rest : List Directive) (offset : Nat) :
    BeginsUnit (located offset (chain nameOf bytes ++ rest)) := by
  cases bytes with
  | nil => exact absurd rfl h
  | cons b bytes =>
    rw [chain, List.append_assoc, located_append]
    exact ⟨_, _, isUnit_call (nameOf b) offset, List.prefix_append _ _⟩

/-- Where a payload is written there is one chain, which spells the target and the name. -/
theorem split_writing {target name : Bytes}
    (htarget : ∀ b ∈ target, accessors.get? (nameOf b) = some b)
    (hname : ∀ b ∈ name, accessors.get? (nameOf b) = some b) (hne : name ≠ []) (writer : UInt32)
    (rest : List Directive) (offset : Nat) :
    ∃ us, lookups accessors us = (target ++ name).map some ∧
      split (located offset (writing nameOf writer target name ++ rest)) =
        us :: split
          (located (offset + (Code.assemble (writing nameOf writer target name)).length) rest) := by
  have hspells := (spells_chain htarget (offset + 1)).append
    (spells_chain hname (offset + 1 + (Code.assemble (chain nameOf target)).length))
  rw [← located_append] at hspells
  have hbegins : BeginsUnit (located (offset + 1) (chain nameOf target ++ chain nameOf name)) := by
    by_cases hnil : target = []
    · rw [hnil, chain, List.nil_append, ← List.append_nil (chain nameOf name)]
      exact beginsUnit_chain hne [] (offset + 1)
    · exact beginsUnit_chain hnil (chain nameOf name) (offset + 1)
  have hpop (place : Nat) (is : List Instruction) :
      split (Directive.pop.instructionAt place :: is) = split is :=
    split_cons (not_beginsUnit (by rintro ⟨⟩) is)
  have hpush : Directive.getLocal0.bytes.length = 1 := rfl
  obtain ⟨us, hus, hsplit⟩ := split_block hspells hbegins
  refine ⟨us, hus, ?_⟩
  rw [located_append, writing, located, located_append, List.cons_append, List.append_assoc]
  rw [located, located, located, List.cons_append, List.cons_append, List.nil_append, hpush,
    hsplit _ _ _ rfl, hpop]

/-- The names that the chains hold are those that were written, whatever calls the search allows. -/
theorem names_writings {target : Bytes} {names : List Bytes}
    (htarget : ∀ b ∈ target, accessors.get? (nameOf b) = some b)
    (hnames : ∀ name ∈ names, ∀ b ∈ name, accessors.get? (nameOf b) = some b)
    (hne : ∀ name ∈ names, name ≠ []) (writer : UInt32) (offset : Nat) :
    let chains := split
      (located offset (names.flatMap (writing nameOf writer target) ++ [.returnVoid]))
    AllMapped accessors chains ∧ Order.names target accessors chains = names := by
  induction names generalizing offset with
  | nil =>
    have hend : split (located offset [.returnVoid]) = [] := by
      rw [located, split_cons (not_beginsUnit (by rintro ⟨⟩) _), located, split,
        dif_neg (by decide)]
    rw [List.flatMap_nil, List.nil_append, hend]
    exact ⟨by simp [AllMapped], rfl⟩
  | cons name names ih =>
    rw [List.flatMap_cons, List.append_assoc]
    obtain ⟨us, hus, hsplit⟩ := split_writing htarget (hnames name List.mem_cons_self)
      (hne name List.mem_cons_self) writer
      (names.flatMap (writing nameOf writer target) ++ [.returnVoid]) offset
    obtain ⟨hmapped, hrest⟩ := ih
      (fun other hother => hnames other (List.mem_cons_of_mem name hother))
      (fun other hother => hne other (List.mem_cons_of_mem name hother))
      (offset + (Code.assemble (writing nameOf writer target name)).length)
    rw [hsplit]
    constructor
    · exact allMapped_cons hus hmapped
    · rw [names_of_lookups hus (hne name List.mem_cons_self), hrest]

end

/-! ### Whole classes -/

theorem instructions_static (stack keymap : UInt32) : (static stack keymap).instructions =
    .ok (located 0 [.getLocal0, .pushScope, .pushString keymap, .pop, .returnVoid]) :=
  decode_assemble (by simp [Directive.isKnown_of_ne_op])

theorem op_notMem_chain (nameOf : UInt8 → UInt32) (bytes : Bytes) (byte : UInt8) :
    Directive.op byte ∉ chain nameOf bytes := by
  cases bytes with
  | nil => exact List.not_mem_nil
  | cons b bytes => simp [chain, call]

theorem instructions_constructor (stack : UInt32) (nameOf : UInt8 → UInt32) (writer : UInt32)
    (target : Bytes) (names : List Bytes) :
    (constructor stack nameOf writer target names).instructions =
      .ok (located 0 ([.getLocal0, .pushScope, .getLocal0, .constructSuper 0] ++
        names.flatMap (writing nameOf writer target) ++ [.returnVoid])) := by
  apply decode_assemble
  intro d hd
  apply Directive.isKnown_of_ne_op
  rintro byte rfl
  simp [writing, op_notMem_chain] at hd

theorem namesFrom_writings (h : p.WellFormed) (writer : UInt32) (strict : Bool) (offset : Nat) :
    namesFrom ⟨Utf8.encode p.target, strict, p.picks⟩
      (located offset ((p.order.map Utf8.encode).flatMap (writing
          (p.nameOf (Program.indices 1 p.accessorNames.length)) writer (Utf8.encode p.target)) ++
        [.returnVoid])) = .ok p.order := by
  have htarget : ∀ b ∈ Utf8.encode p.target,
      p.picks.get? (p.nameOf (Program.indices 1 p.accessorNames.length) b) = some b := by
    intro b hb
    exact get?_picks h (h.target b hb)
  have hnames : ∀ name ∈ p.order.map Utf8.encode, ∀ b ∈ name,
      p.picks.get? (p.nameOf (Program.indices 1 p.accessorNames.length) b) = some b := by
    intro name hname b hb
    obtain ⟨text, htext, rfl⟩ := List.mem_map.1 hname
    exact get?_picks h (h.names text htext b hb)
  have hne : ∀ name ∈ p.order.map Utf8.encode, name ≠ [] := by
    intro name hname
    obtain ⟨text, htext, rfl⟩ := List.mem_map.1 hname
    exact Utf8.encode_ne_nil (h.names_ne text htext)
  obtain ⟨hmapped, hfound⟩ := names_writings htarget hnames hne writer offset
  rw [namesFrom_eq]
  · simp only
    rw [hfound, mapM_nameText_encode]
  · intro _
    exact hmapped

theorem seekPast?_preamble (rest : List Instruction) : seekPast? .constructSuper
    (located 0 [.getLocal0, .pushScope, .getLocal0, .constructSuper 0] ++ rest) = some rest := rfl

/-- The search in the constructor begins behind the call of the base constructor. -/
theorem resolve_constructor (h : p.WellFormed) (writer : UInt32) (strict : Bool) :
    Order.resolve ⟨Utf8.encode p.target, strict, p.picks⟩
      (located 0 ([.getLocal0, .pushScope, .getLocal0, .constructSuper 0] ++
        (p.order.map Utf8.encode).flatMap (writing
          (p.nameOf (Program.indices 1 p.accessorNames.length)) writer (Utf8.encode p.target)) ++
        [.returnVoid])) = .ok p.order := by
  rw [List.append_assoc, located_append, Order.resolve, seekPast?_preamble]
  exact namesFrom_writings h writer strict _

theorem extract_static {strings : List String} {keymap : UInt32} {text : String}
    (h : strings[keymap.toNat]? = some text) :
    Keymap.extract (located 0 [.getLocal0, .pushScope, .pushString keymap, .pop, .returnVoid])
      strings = .ok ⟨text⟩ := by
  have hfirst : Keymap.firstWith? .pushString
      (located 0 [.getLocal0, .pushScope, .pushString keymap, .pop, .returnVoid]) =
      some ((Directive.pushString keymap).instructionAt 2) := rfl
  have hoperand : ((Directive.pushString keymap).instructionAt 2).firstOperand = keymap := rfl
  rw [Keymap.extract, hfirst]
  simp only
  rw [hoperand, h]

theorem instructionsOf_eq {program : Program} {index : Nat} {m : Method} {is : List Instruction}
    (hindex : index < UInt32.size) (hm : program.methods[index]? = some m)
    (his : m.instructions = .ok is) :
    Resolution.instructionsOf program (UInt32.ofNat index) = .ok is := by
  have hmethod : program.methodAt (UInt32.ofNat index) = .ok m := by
    rw [Program.methodAt, UInt32.toNat_ofNat_of_lt' hindex, hm]
  rw [Resolution.instructionsOf, hmethod]
  change ofAbc m.instructions = _
  rw [his]
  rfl

/-- Whatever calls the search allows, it finds the order that was packed. -/
theorem resolve_program (h : p.WellFormed) (strict : Bool) :
    Resolution.resolve ⟨0, p.target, strict⟩ p.program =
      .ok { keymap := ⟨p.keymap⟩, accessors := p.picks, order := p.order } := by
  obtain ⟨constants, keymap, className, _, hkeymap, hprogram⟩ := program_eq h
  rw [hprogram]
  have hcount := h.length_accessorNames_le
  have hsize : UInt32.size = 4294967296 := rfl
  have hmethods : (p.programOf constants keymap className).methods =
      p.accessors ++ [static p.staticStack keymap] ++ [p.packedConstructor] := rfl
  have hstatic : (p.programOf constants keymap className).methods[p.accessorNames.length]? =
      some (static p.staticStack keymap) := by
    rw [hmethods, ← length_accessors]
    simp
  have hconstructor :
      (p.programOf constants keymap className).methods[p.accessorNames.length + 1]? =
        some p.packedConstructor := by
    rw [hmethods, ← length_accessors]
    simp
  have hcinit := instructionsOf_eq (by omega) hstatic (instructions_static p.staticStack keymap)
  have hiinit := instructionsOf_eq (by omega) hconstructor (instructions_constructor _ _ _ _ _)
  have haccessors : Accessors.build p.traits (p.programOf constants keymap className).methods
      ⟨p.keymap⟩ = .ok p.picks := by
    apply build_traits h
    intro i hi
    rw [← h.accessorNames] at hi
    simp [hmethods, accessors, hi, List.getElem?_append]
  have hclass : (p.programOf constants keymap className).classAt 0 = .ok
      ({ Abc.Instance.ofName className with
          iinit := UInt32.ofNat (p.accessorNames.length + 1), traits := p.traits },
        ⟨UInt32.ofNat p.accessorNames.length, []⟩) := rfl
  have hstrings : (p.programOf constants keymap className).constants.strings = constants.strings :=
    rfl
  simp only [Resolution.resolve, hclass, ofAbc, hcinit, hstrings, extract_static hkeymap,
    isEmpty_keymap h, haccessors, hiinit, resolve_constructor h, bind, Except.bind, pure,
    Except.pure, Bool.false_and]
  rfl

end PackedMovie.Resource.Packing
