import Mathlib.Tactic.MkIffOfInductiveProp
import PackedMovie.Abc.Program
import PackedMovie.Proofs.Abc.Fields

/-!
# Well-formed programs

The programs that a file can hold. What stands under a flag is there only if the flag is set, both
halves of a class are there, each table begins with its implicit entry, and every length is below
2³².
-/
namespace PackedMovie.Abc

/-- A table of constants with its implicit entry in front. -/
@[mk_iff] structure Table {α : Type} (implicit : α) (P : α → Prop) (table : List α) : Prop where
  head : table.head? = some implicit
  listed : Listed P table

instance {α : Type} [DecidableEq α] (implicit : α) (P : α → Prop) [DecidablePred P]
    (table : List α) :
    Decidable (Table implicit P table) := decidable_of_iff _ (table_iff implicit P table).symm

/-! ### Constants -/

/-- The length of a text in a file is that of its bytes. -/
def FitsText (text : String) : Prop := Fits (Utf8.encode text)

instance : DecidablePred FitsText := fun _ => inferInstanceAs (Decidable (Fits _))

/-- The arguments of a generic type. -/
def Multiname.parameters : Multiname → List UInt32
  | .typeName _ parameters => parameters
  | _ => []

def Multiname.WellFormed (m : Multiname) : Prop := Fits m.parameters

instance (m : Multiname) : Decidable m.WellFormed := inferInstanceAs (Decidable (Fits _))

namespace ConstantPool

@[mk_iff] structure WellFormed (p : ConstantPool) : Prop where
  ints : Table 0 (fun _ => True) p.ints
  uints : Table 0 (fun _ => True) p.uints
  doubles : Table 0 (fun _ => True) p.doubles
  strings : Table "" FitsText p.strings
  namespaces : Table ⟨0, 0⟩ (fun _ => True) p.namespaces
  namespaceSets : Table [] Fits p.namespaceSets
  multinames : Table (.runtimeQNameLate false) Multiname.WellFormed p.multinames

instance (p : ConstantPool) : Decidable p.WellFormed :=
  decidable_of_iff _ (ConstantPool.wellFormed_iff p).symm

end ConstantPool

/-! ### Members -/

/-- The default value of a slot or a constant; the index zero stands for none. -/
def TraitKind.value? : TraitKind → Option (UInt32 × UInt8)
  | .slot _ _ value => value
  | .const _ _ value => value
  | _ => none

/-- No default value has the index that says there is none. -/
def TraitKind.WellFormed (k : TraitKind) : Prop := ∀ value ∈ k.value?, value.1 ≠ 0

instance (k : TraitKind) : Decidable k.WellFormed := Option.decidableForallMem k.value?

@[mk_iff] structure Trait.WellFormed (t : Trait) : Prop where
  attributes : t.attributes ≤ 15
  kind : t.kind.WellFormed
  metadata : Fits t.metadata
  metadata_absent : hasFlag t.attributes Trait.hasMetadata = false → t.metadata = []

instance (t : Trait) : Decidable t.WellFormed := decidable_of_iff _ (Trait.wellFormed_iff t).symm

@[mk_iff] structure Instance.WellFormed (i : Instance) : Prop where
  protectedNamespace : i.protectedNamespace.isSome = i.hasProtected
  interfaces : Fits i.interfaces
  traits : Listed Trait.WellFormed i.traits

instance (i : Instance) : Decidable i.WellFormed :=
  decidable_of_iff _ (Instance.wellFormed_iff i).symm

def Class.WellFormed (c : Class) : Prop := Listed Trait.WellFormed c.traits

instance (c : Class) : Decidable c.WellFormed := inferInstanceAs (Decidable (Listed _ _))

def Script.WellFormed (s : Script) : Prop := Listed Trait.WellFormed s.traits

instance (s : Script) : Decidable s.WellFormed := inferInstanceAs (Decidable (Listed _ _))

def Metadata.WellFormed (m : Metadata) : Prop := Fits m.items

instance (m : Metadata) : Decidable m.WellFormed := inferInstanceAs (Decidable (Fits _))

/-! ### Methods -/

@[mk_iff] structure Body.WellFormed (b : Body) : Prop where
  code : Fits b.code
  handlers : Fits b.handlers
  traits : Listed Trait.WellFormed b.traits

instance (b : Body) : Decidable b.WellFormed := decidable_of_iff _ (Body.wellFormed_iff b).symm

/-- What a method says apart from its body. -/
@[mk_iff] structure Method.WellFormedSignature (m : Method) : Prop where
  paramTypes : Fits m.paramTypes
  options : Fits m.options
  options_absent : m.hasOptional = false → m.options = []
  paramNames_absent : m.hasParamNames = false → m.paramNames = []
  paramNames_length : m.hasParamNames = true → m.paramNames.length = m.paramTypes.length

instance (m : Method) : Decidable m.WellFormedSignature :=
  decidable_of_iff _ (Method.wellFormedSignature_iff m).symm

/-- A signature does not depend on the body that comes with it. -/
theorem Method.WellFormedSignature.of_body {m : Method} (h : m.WellFormedSignature)
    (body : Option Body) : { m with body }.WellFormedSignature :=
  ⟨h.paramTypes, h.options, h.options_absent, h.paramNames_absent, h.paramNames_length⟩

@[mk_iff] structure Method.WellFormed (m : Method) : Prop where
  signature : m.WellFormedSignature
  body : ∀ b ∈ m.body, b.WellFormed

instance (m : Method) : Decidable m.WellFormed := decidable_of_iff _ (Method.wellFormed_iff m).symm

/-! ### Whole programs -/

@[mk_iff] structure Program.WellFormed (p : Program) : Prop where
  constants : p.constants.WellFormed
  methods : Listed Method.WellFormed p.methods
  metadata : Listed Metadata.WellFormed p.metadata
  instances : Listed Instance.WellFormed p.instances
  classes : ∀ c ∈ p.classes, c.WellFormed
  classes_length : p.classes.length = p.instances.length
  scripts : Listed Script.WellFormed p.scripts

instance (p : Program) : Decidable p.WellFormed :=
  decidable_of_iff _ (Program.wellFormed_iff p).symm

end PackedMovie.Abc
