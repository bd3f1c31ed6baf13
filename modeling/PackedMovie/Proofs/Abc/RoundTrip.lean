import PackedMovie.Proofs.Abc.WellFormed

/-!
# Written programs are read back

Every record is read as what was written, field by field. Bodies stand apart from their methods:
attaching the records in the order in which they are written gives each method its own body again.

Main statement: `Program.read_write`, for every well-formed program and whatever follows it.
-/
namespace PackedMovie.Abc

open PackedMovie.Reader (Reads Leads)

/-! ### Constants -/

theorem reads_table {α : Type} {implicit : α} {P : α → Prop} {table : List α} {r : Reader α}
    {write : α → Bytes} (h : Table implicit P table) (hr : ∀ a, P a → Reads r (write a) a) :
    Reads (readTable implicit r) (writeTable write table) table := by
  obtain ⟨stored, rfl⟩ := List.head?_eq_some_iff.1 h.head
  have hstored : Reads (Reader.times stored.length r) (stored.flatMap write) stored :=
    Reads.times fun a ha => hr a (h.listed.each a (List.mem_cons_of_mem implicit ha))
  unfold writeTable
  refine Reads.bind (a := if (implicit :: stored).length ≤ 1 then 0 else
    UInt32.ofNat (implicit :: stored).length) ?_ ?_
  · split
    · exact reads_u30 0
    · exact reads_length _
  · split
    · rename_i hempty
      have hnil : stored = [] := List.eq_nil_of_length_eq_zero (by simpa using hempty)
      subst hnil
      exact hstored.bind_pure
    · rw [toNat_length h.listed.fits]
      exact hstored.bind_pure

namespace Namespace

theorem reads (n : Namespace) : Reads Namespace.read n.write n :=
  (Reads.u8 n.kind).bind (reads_u30 n.name).bind_pure

end Namespace

namespace Multiname

theorem reads {m : Multiname} (h : m.WellFormed) : Reads Multiname.read m.write m := by
  cases m with
  | qname space name isAttribute =>
    rw [write, List.append_assoc]
    apply (Reads.u8 _).bind
    cases isAttribute <;> exact (reads_u30 space).bind (reads_u30 name).bind_pure
  | runtimeQName name isAttribute =>
    apply (Reads.u8 _).bind
    cases isAttribute <;> exact (reads_u30 name).bind_pure
  | runtimeQNameLate isAttribute =>
    cases isAttribute <;> exact (Reads.u8 _).bind (Reads.pure _)
  | multiname name set isAttribute =>
    rw [write, List.append_assoc]
    apply (Reads.u8 _).bind
    cases isAttribute <;> exact (reads_u30 name).bind (reads_u30 set).bind_pure
  | multinameLate set isAttribute =>
    apply (Reads.u8 _).bind
    cases isAttribute <;> exact (reads_u30 set).bind_pure
  | typeName base parameters =>
    rw [write, List.append_assoc]
    exact (Reads.u8 _).bind ((reads_u30 base).bind (reads_indices h).bind_pure)

end Multiname

namespace ConstantPool

theorem reads {p : ConstantPool} (h : p.WellFormed) : Reads ConstantPool.read p.write p := by
  unfold write
  simp only [List.append_assoc]
  apply (reads_table h.ints fun n _ => reads_s32 n).bind
  apply (reads_table h.uints fun n _ => reads_u30 n).bind
  apply (reads_table h.doubles fun bits _ => Reads.u64 bits).bind
  apply (reads_table h.strings fun text htext => reads_string htext).bind
  apply (reads_table h.namespaces fun n _ => n.reads).bind
  apply (reads_table h.namespaceSets fun set hset => reads_indices hset).bind
  exact (reads_table h.multinames fun m hm => Multiname.reads hm).bind_pure

end ConstantPool

/-! ### Members -/

theorem readKind_kindByte {attributes code : UInt8} (ha : attributes ≤ 15) (hc : code ≤ 15) :
    ((attributes <<< 4) ||| code) >>> 4 = attributes ∧
      ((attributes <<< 4) ||| code) &&& 0x0F = code := by
  have ha : attributes.toNat ≤ 15 := UInt8.le_iff_toNat_le.1 ha
  have hc : code.toNat < 2 ^ 4 := Nat.lt_succ_of_le (UInt8.le_iff_toNat_le.1 hc)
  have hshift : attributes.toNat <<< 4 % 256 = 2 ^ 4 * attributes.toNat := by
    rw [Nat.shiftLeft_eq]
    omega
  have hbyte : ((attributes <<< 4) ||| code).toNat = 2 ^ 4 * attributes.toNat + code.toNat := by
    rw [UInt8.toNat_or, UInt8.toNat_shiftLeft]
    simp only [UInt8.reduceToNat, Nat.reduceMod, Nat.reducePow, hshift]
    exact (Nat.two_pow_add_eq_or_of_lt hc attributes.toNat).symm
  constructor
  · rw [← UInt8.toNat_inj, UInt8.toNat_shiftRight, hbyte]
    simp only [UInt8.reduceToNat, Nat.reduceMod, Nat.shiftRight_eq_div_pow]
    omega
  · rw [← UInt8.toNat_inj, UInt8.toNat_and, hbyte]
    simp only [UInt8.reduceToNat]
    rw [show (15 : Nat) = 2 ^ 4 - 1 from rfl, Nat.and_two_pow_sub_one_eq_mod]
    omega

namespace TraitKind

theorem code_le (k : TraitKind) : k.code ≤ 15 := by
  cases k <;> simp only [code] <;> decide

theorem reads_value {value : Option (UInt32 × UInt8)} (h : ∀ v ∈ value, v.1 ≠ 0) :
    Reads readValue (writeValue value) value := by
  cases value with
  | none =>
    rw [← List.append_nil (writeValue none)]
    apply (reads_u30 0).bind
    rw [if_pos rfl]
    exact Reads.pure none
  | some v =>
    apply (reads_u30 v.1).bind
    rw [if_neg (h v rfl)]
    exact (Reads.u8 v.2).bind_pure

theorem reads_slot (make : UInt32 → UInt32 → Option (UInt32 × UInt8) → TraitKind)
    (slotId typeName : UInt32)
    {value : Option (UInt32 × UInt8)} (h : ∀ v ∈ value, v.1 ≠ 0) :
    Reads (readSlot make) (Write.u30 slotId ++ Write.u30 typeName ++ writeValue value)
      (make slotId typeName value) := by
  rw [List.append_assoc]
  exact (reads_u30 slotId).bind ((reads_u30 typeName).bind (reads_value h).bind_pure)

theorem reads_pair (make : UInt32 → UInt32 → TraitKind) (first second : UInt32) :
    Reads (readPair make) (Write.u30 first ++ Write.u30 second) (make first second) :=
  (reads_u30 first).bind (reads_u30 second).bind_pure

theorem reads {k : TraitKind} (h : k.WellFormed) : Reads (TraitKind.read k.code) k.write k := by
  cases k with
  | slot slotId typeName value => exact reads_slot .slot slotId typeName h
  | method dispId index => exact reads_pair .method dispId index
  | getter dispId index => exact reads_pair .getter dispId index
  | setter dispId index => exact reads_pair .setter dispId index
  | classDef slotId index => exact reads_pair .classDef slotId index
  | function slotId index => exact reads_pair .function slotId index
  | const slotId typeName value => exact reads_slot .const slotId typeName h

end TraitKind

namespace Trait

theorem reads {t : Trait} (h : t.WellFormed) : Reads Trait.read t.write t := by
  obtain ⟨hattributes, hcode⟩ := readKind_kindByte h.attributes t.kind.code_le
  unfold write
  simp only [List.append_assoc]
  apply (reads_u30 t.name).bind
  apply (Reads.u8 _).bind
  dsimp only
  rw [hattributes, hcode]
  apply (TraitKind.reads h.kind).bind
  exact (Reads.under (fun _ => reads_indices h.metadata) h.metadata_absent).bind_pure

theorem reads_all {traits : List Trait} (h : Listed Trait.WellFormed traits) :
    Reads Trait.readAll (Trait.writeAll traits) traits := reads_counted h fun _ => reads

end Trait

namespace Instance

theorem reads {i : Instance} (h : i.WellFormed) : Reads Instance.read i.write i := by
  have hprotected : Reads (Reader.under (hasFlag i.flags protectedFlag) none (some <$> Reader.u30))
      (if hasFlag i.flags protectedFlag then Write.u30 (i.protectedNamespace.getD 0) else [])
      i.protectedNamespace := by
    refine Reads.under (fun hflag => ?_) fun hflag => ?_
    · obtain ⟨space, hspace⟩ := Option.isSome_iff_exists.1 (h.protectedNamespace.trans hflag)
      rw [hspace]
      exact (reads_u30 space).map some
    · exact Option.not_isSome_iff_eq_none.1 (by simp [h.protectedNamespace.trans hflag])
  unfold write
  simp only [List.append_assoc]
  apply (reads_u30 i.name).bind
  apply (reads_u30 i.superName).bind
  apply (Reads.u8 i.flags).bind
  apply hprotected.bind
  exact (reads_indices h.interfaces).bind
    ((reads_u30 i.iinit).bind (Trait.reads_all h.traits).bind_pure)

end Instance

namespace Class

theorem reads {c : Class} (h : c.WellFormed) : Reads Class.read c.write c :=
  (reads_u30 c.cinit).bind (Trait.reads_all h).bind_pure

end Class

namespace Script

theorem reads {s : Script} (h : s.WellFormed) : Reads Script.read s.write s :=
  (reads_u30 s.init).bind (Trait.reads_all h).bind_pure

end Script

namespace Metadata

theorem reads {m : Metadata} (h : m.WellFormed) : Reads Metadata.read m.write m := by
  have hkeys : Reads (Reader.times m.items.length Reader.u30)
      (m.items.flatMap fun item => Write.u30 item.1) (m.items.map Prod.fst) :=
    Reads.times_map fun item _ => reads_u30 item.1
  have hvalues : Reads (Reader.times m.items.length Reader.u30)
      (m.items.flatMap fun item => Write.u30 item.2) (m.items.map Prod.snd) :=
    Reads.times_map fun item _ => reads_u30 item.2
  have hzip : (m.items.map Prod.fst).zip (m.items.map Prod.snd) = m.items :=
    (List.zip_of_prod rfl rfl).symm
  unfold write
  simp only [List.append_assoc]
  apply (reads_u30 m.name).bind
  apply (reads_length _).bind
  rw [toNat_length h]
  apply hkeys.bind
  have hitems := hvalues.bind_pure (f := fun values =>
    Metadata.mk m.name ((m.items.map Prod.fst).zip values))
  rwa [hzip] at hitems

end Metadata

/-! ### Methods -/

namespace OptionalValue

theorem reads (o : OptionalValue) : Reads OptionalValue.read o.write o :=
  (reads_u30 o.value).bind (Reads.u8 o.kind).bind_pure

end OptionalValue

namespace Handler

theorem reads (h : Handler) : Reads Handler.read h.write h := by
  unfold write
  simp only [List.append_assoc]
  apply (reads_u30 h.start).bind
  apply (reads_u30 h.stop).bind
  apply (reads_u30 h.target).bind
  exact (reads_u30 h.exceptionType).bind (reads_u30 h.variableName).bind_pure

end Handler

namespace Body

theorem reads (method : UInt32) {b : Body} (h : b.WellFormed) :
    Reads Body.read (b.write method) (method, b) := by
  unfold write
  simp only [List.append_assoc]
  apply (reads_u30 method).bind
  apply (reads_u30 b.maxStack).bind
  apply (reads_u30 b.localCount).bind
  apply (reads_u30 b.initScopeDepth).bind
  apply (reads_u30 b.maxScopeDepth).bind
  apply (reads_length _).bind
  rw [toNat_length h.code]
  apply (Reads.bytes b.code).bind
  apply (reads_counted (Listed.of_fits h.handlers) fun handler _ => handler.reads).bind
  exact (Trait.reads_all h.traits).bind_pure

end Body

namespace Method

/-- What a signature is read as: the bodies come later. -/
def withoutBody (m : Method) : Method := { m with body := none }

theorem reads_signature {m : Method} (h : m.WellFormedSignature) :
    Reads Method.readSignature m.writeSignature m.withoutBody := by
  have hparams : Reads (Reader.times m.paramTypes.length Reader.u30)
      (m.paramTypes.flatMap Write.u30) m.paramTypes := Reads.times fun n _ => reads_u30 n
  have hnames : m.hasParamNames = true → Reads (Reader.times m.paramTypes.length Reader.u30)
      (m.paramNames.flatMap Write.u30) m.paramNames := by
    intro hflag
    rw [← h.paramNames_length hflag]
    exact Reads.times fun n _ => reads_u30 n
  have hoptions : m.hasOptional = true → Reads (Reader.counted OptionalValue.read)
      (Write.counted OptionalValue.write m.options) m.options :=
    fun _ => reads_counted (Listed.of_fits h.options) fun o _ => o.reads
  unfold writeSignature
  simp only [List.append_assoc]
  apply (reads_length _).bind
  rw [toNat_length h.paramTypes]
  apply (reads_u30 m.returnType).bind
  apply hparams.bind
  apply (reads_u30 m.name).bind
  apply (Reads.u8 m.flags).bind
  apply (Reads.under hoptions h.options_absent).bind
  exact (Reads.under hnames h.paramNames_absent).bind_pure

end Method

/-! ### Attaching bodies -/

namespace Program

/-- Gives each method that a record names the record's body, in the order of the records. -/
def attachAll (records : List (UInt32 × Body)) (methods : List Method) :
    Except Error (List Method) :=
  records.foldlM (fun methods record => attach methods record.1 record.2) methods

theorem reads_bodies {records : List (UInt32 × Body)} {methods attached : List Method}
    (hrecords : ∀ record ∈ records, record.2.WellFormed)
    (h : attachAll records methods = .ok attached) :
    Reads (readBodies records.length methods)
      (records.flatMap fun record => record.2.write record.1) attached := by
  induction records generalizing methods with
  | nil =>
    cases h
    exact Reads.pure attached
  | cons record rest ih =>
    have hrest : ∀ r ∈ rest, r.2.WellFormed :=
      fun r hr => hrecords r (List.mem_cons_of_mem record hr)
    rw [attachAll, List.foldlM_cons] at h
    apply (Body.reads record.1 (hrecords record List.mem_cons_self)).bind
    cases hattach : attach methods record.1 record.2 with
    | error e =>
      rw [hattach] at h
      cases h
    | ok more =>
      rw [hattach] at h
      simp only
      exact ih hrest h

theorem modify_append_cons {α : Type} (f : α → α) (front : List α) (a : α) (back : List α) :
    (front ++ a :: back).modify front.length f = front ++ f a :: back := by
  induction front with
  | nil => rfl
  | cons b front ih =>
    rw [List.cons_append, List.length_cons, List.modify_succ_cons, ih, List.cons_append]

/-- The records of a method list, read behind its signatures, give every method its own body. -/
theorem attachAll_bodies (done rest : List Method)
    (hfits : done.length + rest.length < UInt32.size) :
    attachAll (bodies done.length rest) (done ++ rest.map Method.withoutBody) =
      .ok (done ++ rest) := by
  induction rest generalizing done with
  | nil => rfl
  | cons m rest ih =>
    rw [List.length_cons] at hfits
    have hnext := ih (done ++ [m]) (by rw [List.length_append, List.length_singleton]; omega)
    rw [List.length_append, List.length_singleton, List.append_assoc, List.append_assoc,
      List.singleton_append, List.singleton_append] at hnext
    rw [bodies, List.map_cons]
    cases hbody : m.body with
    | none =>
      have hm : m.withoutBody = m := by rw [Method.withoutBody, ← hbody]
      rw [hm]
      exact hnext
    | some body =>
      have hm : { m.withoutBody with body := some body } = m := by
        simp [Method.withoutBody, ← hbody]
      have hindex : (UInt32.ofNat done.length).toNat = done.length :=
        UInt32.toNat_ofNat_of_lt' (by omega)
      have hattach : attach (done ++ m.withoutBody :: rest.map Method.withoutBody)
          (UInt32.ofNat done.length) body = .ok (done ++ m :: rest.map Method.withoutBody) := by
        rw [attach, hindex, if_pos (by simp), modify_append_cons, hm]
      simp only [attachAll, List.foldlM_cons, hattach]
      exact hnext

theorem wellFormed_bodies {start : Nat} {methods : List Method} (h : ∀ m ∈ methods, m.WellFormed) :
    ∀ record ∈ bodies start methods, record.2.WellFormed := by
  induction methods generalizing start with
  | nil => simp [bodies]
  | cons m rest ih =>
    have hrest : ∀ record ∈ bodies (start + 1) rest, record.2.WellFormed :=
      ih fun m' hm' => h m' (List.mem_cons_of_mem m hm')
    rw [bodies]
    cases hbody : m.body with
    | none => exact hrest
    | some body =>
      intro record hrecord
      rcases List.mem_cons.1 hrecord with rfl | hrecord
      · exact (h m List.mem_cons_self).body body hbody
      · exact hrest record hrecord

theorem length_bodies_le (start : Nat) (methods : List Method) :
    (bodies start methods).length ≤ methods.length := by
  induction methods generalizing start with
  | nil => exact Nat.le_refl 0
  | cons m rest ih =>
    have hrest := ih (start + 1)
    rw [bodies]
    split <;> simp only [List.length_cons] <;> omega

/-! ### Whole programs -/

/-- The written form up to the body records and their number. -/
def writeFront (p : Program) : Bytes :=
  Write.u16 p.minorVersion
    ++ Write.u16 p.majorVersion
    ++ p.constants.write
    ++ Write.counted Method.writeSignature p.methods
    ++ Write.counted Metadata.write p.metadata
    ++ Write.counted Instance.write p.instances
    ++ p.classes.flatMap Class.write
    ++ Write.counted Script.write p.scripts

theorem leads_front {p : Program} (h : p.WellFormed) :
    Leads Program.read p.writeFront (do
      let bodyCount ← Reader.u30
      let methods ← readBodies bodyCount.toNat (p.methods.map Method.withoutBody)
      pure { p with methods }) := by
  have hsignatures : Reads (Reader.counted Method.readSignature)
      (Write.counted Method.writeSignature p.methods) (p.methods.map Method.withoutBody) := by
    apply (reads_length _).bind
    rw [toNat_length h.methods.fits]
    exact Reads.times_map fun m hm => Method.reads_signature (h.methods.each m hm).signature
  have hinstances : Reads (Reader.times p.instances.length Instance.read)
      (p.instances.flatMap Instance.write) p.instances :=
    Reads.times fun i hi => Instance.reads (h.instances.each i hi)
  have hclasses : Reads (Reader.times p.instances.length Class.read)
      (p.classes.flatMap Class.write) p.classes := by
    rw [← h.classes_length]
    exact Reads.times fun c hc => Class.reads (h.classes c hc)
  unfold writeFront
  simp only [Write.counted, List.append_assoc]
  apply (Reads.u16 p.minorVersion).bind_leads
  apply (Reads.u16 p.majorVersion).bind_leads
  apply (ConstantPool.reads h.constants).bind_leads
  rw [← List.append_assoc (Write.length p.methods.length)]
  apply hsignatures.bind_leads
  rw [← List.append_assoc (Write.length p.metadata.length)]
  apply (reads_counted h.metadata fun m hm => Metadata.reads hm).bind_leads
  apply (reads_length _).bind_leads
  rw [toNat_length h.instances.fits]
  apply hinstances.bind_leads
  apply hclasses.bind_leads
  exact (reads_counted h.scripts fun s hs => Script.reads hs).leads _

theorem reads {p : Program} (h : p.WellFormed) : Reads Program.read p.write p := by
  have hbodies : Reads (readBodies (bodies 0 p.methods).length (p.methods.map Method.withoutBody))
      ((bodies 0 p.methods).flatMap fun record => record.2.write record.1) p.methods := by
    have hattached := attachAll_bodies [] p.methods (by simpa [Fits] using h.methods.fits)
    exact reads_bodies (wellFormed_bodies h.methods.each) hattached
  have hcount : Fits (bodies 0 p.methods) :=
    Nat.lt_of_le_of_lt (length_bodies_le 0 p.methods) h.methods.fits
  apply (leads_front h).reads
  apply (reads_length _).bind
  rw [toNat_length hcount]
  exact hbodies.bind_pure

/-- A well-formed program is read back from its written form, of which nothing is left and behind
which nothing is looked at. -/
theorem read_write {p : Program} (h : p.WellFormed) (rest : Bytes) :
    Program.read (.ofBytes (p.write ++ rest)) = .ok p ⟨p.write.length, rest⟩ ∧
      Program.parse (p.write ++ rest) = .ok p := by
  constructor
  · rw [Cursor.ofBytes, reads h 0 rest, Nat.zero_add]
  · exact (reads h).runOn rest

/-- A program that has each part which a flag or a count may leave out. -/
def embellished : Program where
  minorVersion := 16
  majorVersion := 46
  constants := { ConstantPool.empty with
    strings := ["", "size", "größe"]
    namespaces := [⟨0, 0⟩, ⟨0x18, 2⟩]
    multinames := [.runtimeQNameLate false, .qname 1 1 true, .typeName 1 [1, 1]] }
  methods := [{
    paramTypes := [1, 2]
    returnType := 0
    name := 2
    flags := 0x88
    options := [⟨1, 0x03⟩]
    paramNames := [1, 2]
    body := some {
      maxStack := 2
      localCount := 3
      initScopeDepth := 0
      maxScopeDepth := 1
      code := [0xD0, 0x30, 0x47]
      handlers := [⟨0, 1, 2, 0, 1⟩]
      traits := [⟨1, .const 1 1 (some (2, 0x01)), 4, [0]⟩] } }]
  metadata := [⟨1, [(1, 2)]⟩]
  instances := [⟨1, 0, 0x08, some 1, [1], 0, [⟨1, .slot 1 1 none, 0, []⟩]⟩]
  classes := [⟨0, []⟩]
  scripts := [⟨0, [⟨1, .classDef 1 0, 4, [0]⟩]⟩]

theorem read_write_embellished :
    embellished.WellFormed ∧
      Program.read (.ofBytes (embellished.write ++ [0x2A])) =
        .ok embellished ⟨embellished.write.length, [0x2A]⟩ ∧
      Program.parse (embellished.write ++ [0x2A]) = .ok embellished := by
  have h : embellished.WellFormed := by decide +kernel
  exact ⟨h, read_write h [0x2A]⟩

end Program

end PackedMovie.Abc
