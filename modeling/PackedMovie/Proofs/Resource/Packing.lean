import PackedMovie.Proofs.Abc.Assembly
import PackedMovie.Proofs.Code.Assembly
import PackedMovie.Resource.Order

/-!
# Packing

How a class is put together that hides an order: its static initializer pushes the keymap, it has an
accessor for each byte of the keymap, and its constructor spells the target and a name wherever a
payload is written.

Main statements: `program_eq`, `wellFormed_program`.
-/
namespace PackedMovie.Resource

open PackedMovie.Abc (Class ConstantPool Instance Listed Method Program Trait)
open PackedMovie.Code (Directive)

/-- What a packed class is made from. -/
structure Packing where
  keymap : String
  target : String
  order : Order
  /-- The names of the accessors, by the positions in the keymap that they pick. -/
  accessorNames : List String
  writerName : String
  className : String
  staticStack : UInt32
  constructorStack : UInt32
  /-- A position in the keymap for each byte that is spelled. -/
  position : UInt8 → Nat

namespace Packing

/-! ### Code -/

def accessor (i : Nat) : Method :=
  (Method.empty.withRest true).withBody 2 (Code.assemble
    [.getLocal0, .pushScope, .pushByte (UInt8.ofNat i), .returnValue])

def static (stack keymap : UInt32) : Method :=
  Method.empty.withBody stack (Code.assemble
    [.getLocal0, .pushScope, .pushString keymap, .pop, .returnVoid])

def call (name : UInt32) : List Directive := [.getLocal0, .callProperty name 0]

/-- The calls that spell some bytes; an addition joins each to those before it. -/
def chain (nameOf : UInt8 → UInt32) : Bytes → List Directive
  | [] => []
  | b :: rest => call (nameOf b) ++ rest.flatMap fun b => call (nameOf b) ++ [.add]

/-- Nothing stands between the target and the name behind it. -/
def writing (nameOf : UInt8 → UInt32) (writer : UInt32) (target name : Bytes) : List Directive :=
  .getLocal0 :: (chain nameOf target ++ chain nameOf name ++ [.callProperty writer 1, .pop])

def constructor (stack : UInt32) (nameOf : UInt8 → UInt32) (writer : UInt32) (target : Bytes)
    (names : List Bytes) : Method :=
  Method.empty.withBody stack (Code.assemble
    ([.getLocal0, .pushScope, .getLocal0, .constructSuper 0] ++
      names.flatMap (writing nameOf writer target) ++ [.returnVoid]))

/-! ### The program -/

variable (p : Packing)

def letters : Bytes := Utf8.encode p.keymap

/-- The accessor's name for a byte, among the names of all accessors. -/
def nameOf (names : List UInt32) (b : UInt8) : UInt32 := (names[p.position b]?).getD 0

def accessors : List Method := (List.range p.accessorNames.length).map accessor

/-- The class enters an empty program as its only one. -/
def build : StateM Program Unit := do
  let names ← p.accessorNames.mapM fun name => Program.onConstants (ConstantPool.addQName name)
  let writer ← Program.onConstants (ConstantPool.addQName p.writerName)
  let accessors ← p.accessors.mapM Program.addMethod
  let keymap ← Program.onConstants (ConstantPool.addString p.keymap)
  let cinit ← Program.addMethod (static p.staticStack keymap)
  let iinit ← Program.addMethod (constructor p.constructorStack (p.nameOf names) writer
    (Utf8.encode p.target) (p.order.map Utf8.encode))
  let inst ← Program.newInstance p.className
  let _ ← Program.addClass
    { inst with iinit, traits := List.zipWith Trait.ofMethod names accessors } ⟨cinit, []⟩

def program : Program := (p.build.run .empty).2

/-- The keymap has a byte for every accessor and can be picked from by single bytes, and whatever is
spelled consists of bytes of the keymap. -/
structure WellFormed : Prop where
  keymap_ne : p.keymap ≠ ""
  keymap_length : p.letters.length ≤ 256
  accessorNames : p.accessorNames.length = p.letters.length
  position : ∀ b ∈ p.letters, p.letters[p.position b]? = some b
  target : ∀ b ∈ Utf8.encode p.target, b ∈ p.letters
  names_ne : ∀ name ∈ p.order, name ≠ ""
  names : ∀ name ∈ p.order, ∀ b ∈ Utf8.encode name, b ∈ p.letters

/-! ### What the steps make -/

/-- The constructor, if the accessors have the first names after the implicit one and the name of
what writes comes next. -/
def packedConstructor : Method :=
  constructor p.constructorStack (p.nameOf (Program.indices 1 p.accessorNames.length))
    (UInt32.ofNat (1 + p.accessorNames.length)) (Utf8.encode p.target) (p.order.map Utf8.encode)

def traits : List Trait :=
  List.zipWith Trait.ofMethod (Program.indices 1 p.accessorNames.length)
    (Program.indices 0 p.accessorNames.length)

/-- A program to which no class was added yet. -/
def classless (constants : ConstantPool) (methods : List Method) : Program :=
  { Program.empty with constants, methods }

/-- The program, up to its constants and the indices that lead to the keymap and to the class's
name. -/
def programOf (constants : ConstantPool) (keymap className : UInt32) : Program :=
  { classless constants
      (p.accessors ++ [static p.staticStack keymap] ++ [p.packedConstructor]) with
    instances := [{ Instance.ofName className with
      iinit := UInt32.ofNat (p.accessorNames.length + 1), traits := p.traits }]
    classes := [⟨UInt32.ofNat p.accessorNames.length, []⟩] }

variable {p}

theorem WellFormed.length_accessorNames_le (h : p.WellFormed) : p.accessorNames.length ≤ 256 :=
  h.accessorNames ▸ h.keymap_length

theorem length_accessors : p.accessors.length = p.accessorNames.length := by
  rw [accessors, List.length_map, List.length_range]

theorem run_addMethod (m : Method) (constants : ConstantPool) (methods : List Method) :
    (Program.addMethod m).run (classless constants methods) =
      (UInt32.ofNat methods.length, classless constants (methods ++ [m])) := rfl

theorem run_addMethods (added : List Method) (constants : ConstantPool) :
    (added.mapM Program.addMethod).run (classless constants []) =
      (Program.indices 0 added.length, classless constants added) :=
  Program.run_addMethods added (classless constants [])

theorem run_onConstants {α : Type} {step : StateM ConstantPool α} {a : α}
    {constants more : ConstantPool} (h : step.run constants = (a, more)) (methods : List Method) :
    (Program.onConstants step).run (classless constants methods) = (a, classless more methods) :=
  Program.run_onConstants h

theorem run_newInstance {name : String} {index : UInt32} {constants more : ConstantPool}
    (h : (ConstantPool.addQName name).run constants = (index, more)) (methods : List Method) :
    (Program.newInstance name).run (classless constants methods) =
      (Instance.ofName index, classless more methods) := Program.run_newInstance h

theorem program_eq (h : p.WellFormed) : ∃ constants keymap className,
    ConstantPool.Grows (p.accessorNames.length + 3) (p.accessorNames.length + 2) .empty constants ∧
    constants.strings[keymap.toNat]? = some p.keymap ∧
    p.program = p.programOf constants keymap className := by
  obtain ⟨named, hnamed, hnames⟩ := Program.run_addQNames p.accessorNames .empty
  obtain ⟨written, hwriter, hwritten⟩ := ConstantPool.run_addQName p.writerName named
  obtain ⟨keymap, keyed, hkeymap, hkeyed, hstring⟩ := ConstantPool.run_addString p.keymap written
  obtain ⟨constants, hclass, hconstants⟩ := ConstantPool.run_addQName p.className keyed
  have hgrown := hnamed.trans hwritten
  refine ⟨constants, keymap, UInt32.ofNat keyed.multinames.length,
    (hgrown.trans hkeyed).trans hconstants, ?_, ?_⟩
  · apply hconstants.string
    apply hstring
    have hlength := hgrown.length_strings_le
    have hcount := h.length_accessorNames_le
    have hempty : Program.empty.constants.strings.length = 1 := rfl
    have hsize : UInt32.size = 4294967296 := rfl
    unfold Abc.Fits
    omega
  · have hnames : (p.accessorNames.mapM fun name =>
        Program.onConstants (ConstantPool.addQName name)).run .empty =
          (Program.indices 1 p.accessorNames.length, classless named []) := hnames
    have haccessors := run_addMethods p.accessors written
    rw [hnamed.length_multinames] at hwriter
    rw [length_accessors] at haccessors
    rw [program, build, Abc.run_bind_eq hnames, Abc.run_bind_eq (run_onConstants hwriter _),
      Abc.run_bind_eq haccessors, Abc.run_bind_eq (run_onConstants hkeymap _),
      Abc.run_bind_eq (run_addMethod _ _ _), Abc.run_bind_eq (run_addMethod _ _ _),
      Abc.run_bind_eq (run_newInstance hclass _), List.length_append, length_accessors]
    rfl

/-! ### Its written form -/

section

variable {constants : ConstantPool} {keymap className : UInt32}
  (hsize : (p.programOf constants keymap className).write.length < UInt32.size)
include hsize

theorem wellFormed_of_mem {signature : Method} {stack : UInt32} {code : Bytes}
    (hm : signature.withBody stack code ∈ (p.programOf constants keymap className).methods)
    (hsignature : signature.WellFormedSignature) : (signature.withBody stack code).WellFormed := by
  apply Method.wellFormed_withBody hsignature
  have hcode := Program.length_code_le hm rfl
  exact Nat.lt_of_le_of_lt hcode hsize

theorem listed_methods (h : p.WellFormed) :
    Listed Method.WellFormed (p.programOf constants keymap className).methods := by
  have hplain : Method.empty.WellFormedSignature := by decide
  have hrest : (Method.empty.withRest true).WellFormedSignature := by decide
  constructor
  · have hcount := h.length_accessorNames_le
    have hmax : UInt32.size = 4294967296 := rfl
    unfold Abc.Fits
    rw [programOf, classless, List.length_append, List.length_append, length_accessors,
      List.length_singleton, List.length_singleton]
    omega
  · intro m hm
    have hmem := hm
    rw [programOf, classless, List.mem_append, List.mem_append] at hmem
    rcases hmem with (hmem | hmem) | hmem
    · obtain ⟨i, _, rfl⟩ := List.mem_map.1 hmem
      exact wellFormed_of_mem hsize hm hrest
    · rw [List.mem_singleton.1 hmem] at hm ⊢
      exact wellFormed_of_mem hsize hm hplain
    · rw [List.mem_singleton.1 hmem] at hm ⊢
      exact wellFormed_of_mem hsize hm hplain

theorem wellFormed_constants (h : p.WellFormed)
    (hgrown : ConstantPool.Grows (p.accessorNames.length + 3) (p.accessorNames.length + 2) .empty
      constants) : constants.WellFormed := by
  have hcount := h.length_accessorNames_le
  have hmax : UInt32.size = 4294967296 := rfl
  apply hgrown.wellFormed (by omega) (by omega)
  intro text htext
  have hlength := Program.length_string_le (p := p.programOf constants keymap className) htext
  exact Nat.lt_of_le_of_lt hlength hsize

end

theorem listed_instances (h : p.WellFormed) (constants : ConstantPool) (keymap className : UInt32) :
    Listed Instance.WellFormed (p.programOf constants keymap className).instances := by
  constructor
  · change 1 < UInt32.size
    decide
  · intro inst hinst
    have hflag : Abc.hasFlag 0 Instance.protectedFlag = false := by decide
    have hnames : Abc.Fits (Program.indices 1 p.accessorNames.length) := by
      have hcount := h.length_accessorNames_le
      have hmax : UInt32.size = 4294967296 := rfl
      unfold Abc.Fits
      rw [Program.length_indices]
      omega
    rw [List.mem_singleton.1 hinst]
    exact ⟨hflag.symm, Abc.fits_nil, Abc.listed_ofMethod hnames⟩

/-- The program can be written if its lengths do not exceed what a file can hold. -/
theorem wellFormed_program (h : p.WellFormed) (hsize : p.program.write.length < UInt32.size) :
    p.program.WellFormed := by
  obtain ⟨constants, keymap, className, hgrown, _, hprogram⟩ := program_eq h
  rw [hprogram] at hsize ⊢
  constructor
  · exact wellFormed_constants hsize h hgrown
  · exact listed_methods hsize h
  · exact Abc.listed_nil _
  · exact listed_instances h constants keymap className
  · intro c hc
    rw [List.mem_singleton.1 hc]
    exact Abc.listed_nil _
  · rfl
  · exact Abc.listed_nil _

end Packing

end PackedMovie.Resource
