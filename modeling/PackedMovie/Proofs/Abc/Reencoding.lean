import PackedMovie.Proofs.Abc.RoundTrip

/-!
# Whatever is read can be written again

A program that is read from any bytes at all is well-formed, up to the lengths of its strings: a
malformed byte becomes three, so only they can outgrow 32 bits. Writing a program that was read
therefore loses nothing, and writing it once more changes nothing.

Main statement: `Program.normalize_idempotent`.
-/
namespace PackedMovie.Abc

open PackedMovie.Reader (Yields)

/-! ### Constants -/

theorem yields_table {α : Type} {implicit : α} {P : α → Prop} {r : Reader α} (hr : Yields r P)
    (himplicit : P implicit) : Yields (readTable implicit r) (Table implicit P) := by
  refine (Yields.trivial Reader.u30).bind fun length _ => ?_
  refine (Yields.times hr (length.toNat - 1)).bind fun stored hstored => Yields.pure ⟨rfl, ?_, ?_⟩
  · have hlength := length.toNat_lt
    have hsize : UInt32.size = 4294967296 := rfl
    rw [Fits, List.length_cons, hstored.1]
    omega
  · intro a ha
    rcases List.mem_cons.1 ha with rfl | ha
    · exact himplicit
    · exact hstored.2 a ha

namespace Multiname

theorem wellFormed_of_nil {m : Multiname} (h : m.parameters = []) : m.WellFormed := by
  rw [WellFormed, h]
  exact fits_nil

theorem yields_readKind (kind : UInt8) : Yields (readKind kind) WellFormed := by
  unfold readKind
  split
  · exact (Yields.trivial _).bind fun _ _ => (Yields.trivial _).bind fun _ _ =>
      Yields.pure (wellFormed_of_nil rfl)
  split
  · exact (Yields.trivial _).bind fun _ _ => Yields.pure (wellFormed_of_nil rfl)
  split
  · exact Yields.pure (wellFormed_of_nil rfl)
  split
  · exact (Yields.trivial _).bind fun _ _ => (Yields.trivial _).bind fun _ _ =>
      Yields.pure (wellFormed_of_nil rfl)
  split
  · exact (Yields.trivial _).bind fun _ _ => Yields.pure (wellFormed_of_nil rfl)
  split
  · exact (Yields.trivial _).bind fun _ _ => yields_counted_fits.bind fun _ h => Yields.pure h
  · exact Yields.throw _ _

theorem yields : Yields Multiname.read WellFormed :=
  (Yields.trivial _).bind fun kind _ => yields_readKind kind

end Multiname

namespace ConstantPool

/-- All texts of a pool can be written. -/
def FitsTexts (p : ConstantPool) : Prop := ∀ text ∈ p.strings, FitsText text

instance (p : ConstantPool) : Decidable p.FitsTexts :=
  inferInstanceAs (Decidable (∀ text ∈ p.strings, _))

theorem yields : Yields ConstantPool.read fun p => p.FitsTexts → p.WellFormed := by
  refine (yields_table (Yields.trivial _) True.intro).bind fun ints hints => ?_
  refine (yields_table (Yields.trivial _) True.intro).bind fun uints huints => ?_
  refine (yields_table (Yields.trivial _) True.intro).bind fun doubles hdoubles => ?_
  refine (yields_table (Yields.trivial _) True.intro).bind fun strings hstrings => ?_
  refine (yields_table (Yields.trivial _) True.intro).bind fun namespaces hnamespaces => ?_
  refine (yields_table yields_counted_fits fits_nil).bind fun sets hsets => ?_
  refine (yields_table Multiname.yields (Multiname.wellFormed_of_nil rfl)).bind ?_
  intro names hnames
  refine Yields.pure fun htexts => ?_
  exact {
    ints := hints, uints := huints, doubles := hdoubles
    strings := ⟨hstrings.head, hstrings.listed.fits, htexts⟩
    namespaces := hnamespaces, namespaceSets := hsets, multinames := hnames }

end ConstantPool

/-! ### Members -/

namespace TraitKind

theorem yields_value : Yields readValue fun value => ∀ v ∈ value, v.1 ≠ 0 := by
  refine (Yields.trivial _).bind fun index _ => ?_
  split
  · exact Yields.pure fun v hv => by simp at hv
  · rename_i hindex
    refine (Yields.trivial _).bind fun kind _ => Yields.pure fun v hv => ?_
    cases hv
    exact hindex

theorem yields_slot {make : UInt32 → UInt32 → Option (UInt32 × UInt8) → TraitKind}
    (hmake : ∀ slotId typeName value, (make slotId typeName value).value? = value) :
    Yields (readSlot make) WellFormed := by
  refine (Yields.trivial _).bind fun slotId _ => (Yields.trivial _).bind fun typeName _ => ?_
  refine yields_value.bind fun value hvalue => Yields.pure ?_
  rw [WellFormed, hmake]
  exact hvalue

theorem yields_pair {make : UInt32 → UInt32 → TraitKind} (hmake : ∀ a b, (make a b).value? = none) :
    Yields (readPair make) WellFormed := by
  refine (Yields.trivial _).bind fun a _ => (Yields.trivial _).bind fun b _ => Yields.pure ?_
  rw [WellFormed, hmake]
  exact fun v hv => by simp at hv

theorem yields (code : UInt8) : Yields (TraitKind.read code) WellFormed := by
  unfold TraitKind.read
  split
  · exact yields_slot fun _ _ _ => rfl
  split
  · exact yields_pair fun _ _ => rfl
  split
  · exact yields_pair fun _ _ => rfl
  split
  · exact yields_pair fun _ _ => rfl
  split
  · exact yields_pair fun _ _ => rfl
  split
  · exact yields_pair fun _ _ => rfl
  split
  · exact yields_slot fun _ _ _ => rfl
  · exact Yields.throw _ _

end TraitKind

namespace Trait

theorem shiftRight_four_le (kindByte : UInt8) : kindByte >>> 4 ≤ 15 := by
  have hbyte := kindByte.toNat_lt
  rw [UInt8.le_iff_toNat_le, UInt8.toNat_shiftRight]
  simp only [UInt8.reduceToNat, Nat.reduceMod, Nat.shiftRight_eq_div_pow]
  omega

theorem yields : Yields Trait.read WellFormed := by
  refine (Yields.trivial _).bind fun name _ => (Yields.trivial _).bind fun kindByte _ => ?_
  refine (TraitKind.yields _).bind fun kind hkind => ?_
  have hmetadata :
      Yields (Reader.under (hasFlag (kindByte >>> 4) hasMetadata) [] (Reader.counted Reader.u30))
        fun metadata =>
          Fits metadata ∧ (hasFlag (kindByte >>> 4) hasMetadata = false → metadata = []) :=
    Yields.under
      (fun hflag => yields_counted_fits.mono fun _ h => ⟨h, fun hno => by simp [hflag] at hno⟩)
      fun _ => ⟨fits_nil, fun _ => rfl⟩
  exact hmetadata.bind fun metadata h => Yields.pure {
    attributes := shiftRight_four_le kindByte, kind := hkind, metadata := h.1,
    metadata_absent := h.2 }

theorem yields_all : Yields Trait.readAll (Listed WellFormed) := yields_counted yields

end Trait

namespace Instance

theorem yields : Yields Instance.read WellFormed := by
  refine (Yields.trivial _).bind fun name _ => (Yields.trivial _).bind fun superName _ => ?_
  refine (Yields.trivial _).bind fun flags _ => ?_
  have hprotected : Yields (Reader.under (hasFlag flags protectedFlag) none (some <$> Reader.u30))
      fun space => space.isSome = hasFlag flags protectedFlag :=
    Yields.under (fun hflag => Yields.map ((Yields.trivial _).mono fun _ _ => hflag.symm))
      fun hflag => hflag.symm
  refine hprotected.bind fun space hspace => ?_
  refine yields_counted_fits.bind fun interfaces hinterfaces => ?_
  refine (Yields.trivial _).bind fun iinit _ => Trait.yields_all.bind fun traits htraits => ?_
  exact Yields.pure { protectedNamespace := hspace, interfaces := hinterfaces, traits := htraits }

end Instance

namespace Class

theorem yields : Yields Class.read WellFormed :=
  (Yields.trivial _).bind fun _ _ => Trait.yields_all.bind fun _ htraits => Yields.pure htraits

end Class

namespace Script

theorem yields : Yields Script.read WellFormed :=
  (Yields.trivial _).bind fun _ _ => Trait.yields_all.bind fun _ htraits => Yields.pure htraits

end Script

namespace Metadata

theorem yields : Yields Metadata.read WellFormed := by
  refine (Yields.trivial _).bind fun name _ => (Yields.trivial _).bind fun count _ => ?_
  refine (Yields.times (Yields.trivial _) count.toNat).bind fun keys hkeys => ?_
  refine (Yields.trivial _).bind fun values _ => Yields.pure ?_
  have hcount := count.toNat_lt
  have hsize : UInt32.size = 4294967296 := rfl
  rw [WellFormed, Fits, List.length_zip, hkeys.1]
  omega

end Metadata

/-! ### Methods -/

namespace Body

theorem yields : Yields Body.read fun record => record.2.WellFormed := by
  refine (Yields.trivial _).bind fun method _ => (Yields.trivial _).bind fun maxStack _ => ?_
  refine (Yields.trivial _).bind fun localCount _ => ?_
  refine (Yields.trivial _).bind fun initScopeDepth _ => ?_
  refine (Yields.trivial _).bind fun maxScopeDepth _ => ?_
  refine (Yields.trivial _).bind fun codeLength _ => ?_
  refine (Yields.bytes codeLength.toNat).bind fun code hcode => ?_
  refine yields_counted_fits.bind fun handlers hhandlers => ?_
  refine Trait.yields_all.bind fun traits htraits => Yields.pure ⟨?_, hhandlers, htraits⟩
  rw [Fits, hcode]
  exact codeLength.toNat_lt

end Body

namespace Method

theorem yields_signature : Yields Method.readSignature WellFormed := by
  refine (Yields.trivial _).bind fun paramCount _ => (Yields.trivial _).bind fun returnType _ => ?_
  refine (Yields.times (Yields.trivial _) paramCount.toNat).bind fun paramTypes hparams => ?_
  refine (Yields.trivial _).bind fun name _ => (Yields.trivial _).bind fun flags _ => ?_
  have hoptions :
      Yields (Reader.under (hasFlag flags hasOptionalFlag) [] (Reader.counted OptionalValue.read))
      fun options => Fits options ∧ (hasFlag flags hasOptionalFlag = false → options = []) :=
    Yields.under
      (fun hflag => yields_counted_fits.mono fun _ h => ⟨h, fun hno => by simp [hflag] at hno⟩)
      fun _ => ⟨fits_nil, fun _ => rfl⟩
  have hnames : Yields
      (Reader.under (hasFlag flags hasParamNamesFlag) [] (Reader.times paramCount.toNat Reader.u30))
      fun names => (hasFlag flags hasParamNamesFlag = false → names = []) ∧
        (hasFlag flags hasParamNamesFlag = true → names.length = paramTypes.length) :=
    Yields.under
      (fun hflag => (Yields.times (Yields.trivial _) paramCount.toNat).mono fun _ h =>
        ⟨fun hno => by simp [hflag] at hno, fun _ => h.1.trans hparams.1.symm⟩)
      fun hflag => ⟨fun _ => rfl, fun hyes => by simp [hflag] at hyes⟩
  refine hoptions.bind fun options ho => hnames.bind fun names hn => ?_
  refine Yields.pure ⟨?_, fun _ hb => by cases hb⟩
  refine ⟨?_, ho.1, ho.2, hn.1, hn.2⟩
  rw [Fits, hparams.1]
  exact paramCount.toNat_lt

end Method

/-! ### Whole programs -/

namespace Program

/-- Attaching a body keeps the number of methods and what they say. -/
theorem listed_attach {methods attached : List Method} {index : UInt32} {body : Body}
    (hmethods : Listed Method.WellFormed methods) (hbody : body.WellFormed)
    (h : attach methods index body = .ok attached) : Listed Method.WellFormed attached := by
  unfold attach at h
  split at h
  · cases h
    constructor
    · rw [Fits, List.length_modify]
      exact hmethods.fits
    · intro m hm
      obtain ⟨i, hi⟩ := List.mem_iff_getElem?.1 hm
      rw [List.getElem?_modify] at hi
      obtain ⟨n, hn, rfl⟩ := Option.map_eq_some_iff.1 hi
      have hold := hmethods.each n (List.mem_of_getElem? hn)
      split
      · constructor
        · exact hold.signature.of_body (some body)
        · intro b hb
          cases hb
          exact hbody
      · exact hold
  · cases h

theorem yields_bodies {methods : List Method} (hmethods : Listed Method.WellFormed methods)
    (count : Nat) :
    Yields (readBodies count methods) (Listed Method.WellFormed) := by
  induction count generalizing methods with
  | zero => exact Yields.pure hmethods
  | succ count ih =>
    refine Body.yields.bind fun record hrecord => ?_
    split
    · rename_i attached hattached
      exact ih (listed_attach hmethods hrecord hattached)
    · exact Yields.throw _ _

theorem yields : Yields Program.read fun p => p.constants.FitsTexts → p.WellFormed := by
  refine (Yields.trivial _).bind fun minorVersion _ => ?_
  refine (Yields.trivial _).bind fun majorVersion _ => ?_
  refine ConstantPool.yields.bind fun constants hconstants => ?_
  refine (yields_counted Method.yields_signature).bind fun signatures hsignatures => ?_
  refine (yields_counted Metadata.yields).bind fun metadata hmetadata => ?_
  refine (Yields.trivial _).bind fun classCount _ => ?_
  refine (Yields.times Instance.yields classCount.toNat).bind fun instances hinstances => ?_
  refine (Yields.times Class.yields classCount.toNat).bind fun classes hclasses => ?_
  refine (yields_counted Script.yields).bind fun scripts hscripts => ?_
  refine (Yields.trivial _).bind fun bodyCount _ => ?_
  refine (yields_bodies hsignatures bodyCount.toNat).bind fun methods hmethods => ?_
  refine Yields.pure fun htexts => ?_
  have hfits : Fits instances := by
    rw [Fits, hinstances.1]
    exact classCount.toNat_lt
  exact {
    constants := hconstants htexts, methods := hmethods, metadata := hmetadata
    instances := ⟨hfits, hinstances.2⟩, classes := hclasses.2
    classes_length := hclasses.1.trans hinstances.1.symm, scripts := hscripts }

theorem wellFormed_of_parse {bytes : Bytes} {p : Program} (h : parse bytes = .ok p)
    (htexts : p.constants.FitsTexts) : p.WellFormed := yields.of_runOn h htexts

/-- The bytes of a file as this library writes them. -/
def normalize (bytes : Bytes) : Except Error Bytes := write <$> parse bytes

/-- A program that was read is read again from what it is written as, so what is once normal stays
as it is. -/
theorem normalize_idempotent {bytes : Bytes} {p : Program} (h : parse bytes = .ok p)
    (htexts : p.constants.FitsTexts) :
    parse p.write = .ok p ∧ normalize bytes = .ok p.write ∧ normalize p.write = .ok p.write := by
  have hwrite : parse p.write = .ok p := by
    have hread := (reads (wellFormed_of_parse h htexts)).runOn []
    rwa [List.append_nil] at hread
  refine ⟨hwrite, ?_, ?_⟩
  · rw [normalize, h]
    rfl
  · rw [normalize, hwrite]
    rfl

/-- A file that this library would write otherwise: counts are longer than they need be, a table is
said to have one entry, a string is not valid, a method has two bodies and a byte is left over. -/
def irregularBytes : Bytes :=
  [0x10, 0x00, 0x2E, 0x00,
    0x81, 0x80, 0x00, 0x00, 0x00, 0x02, 0x02, 0xC3, 0x28, 0x00, 0x00, 0x00,
    0x01, 0x00, 0x00, 0x00, 0x00, 0x00, 0x00, 0x00,
    0x02, 0x00, 0x01, 0x01, 0x00, 0x01, 0x00, 0x00, 0x00, 0x80, 0x00, 0x02, 0x01, 0x00, 0x01, 0x01,
    0x47, 0x00, 0x00,
    0x7F]

def irregular : Program where
  minorVersion := 16
  majorVersion := 46
  constants := { ConstantPool.empty with strings := ["", "\uFFFD("] }
  methods := [{ Method.empty with body := some ⟨2, 1, 0, 1, [0x47], [], []⟩ }]
  metadata := []
  instances := []
  classes := []
  scripts := []

theorem normalize_idempotent_irregular :
    (parse irregularBytes = .ok irregular ∧ irregular.constants.FitsTexts) ∧
      parse irregular.write = .ok irregular ∧ normalize irregularBytes = .ok irregular.write ∧
      normalize irregular.write = .ok irregular.write := by
  have hparsed : (parse irregularBytes).toOption = some irregular := by decide +kernel
  have h : parse irregularBytes = .ok irregular := by
    cases hparse : parse irregularBytes with
    | error e =>
      rw [hparse] at hparsed
      cases hparsed
    | ok p =>
      rw [hparse] at hparsed
      rw [Option.some.inj hparsed]
  have htexts : irregular.constants.FitsTexts := by decide
  exact ⟨⟨h, htexts⟩, normalize_idempotent h htexts⟩

end Program

end PackedMovie.Abc
