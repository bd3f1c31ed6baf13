import Mathlib.Algebra.GroupWithZero.Nat
import PackedMovie.Proofs.Abc.BodyRecords
import PackedMovie.Proofs.Abc.Reencoding
import PackedMovie.Proofs.Abc.Relocation
import PackedMovie.Proofs.Bytes.Taken

/-!
# The bytes that records take

Whatever is read takes at least as many bytes as it is written in again: numbers are written in as
few groups as hold them, and lists with the length that they were read with. It also takes a byte
for each entry of every list in it, since no entry is made of nothing.

Main statements: `Body.accounts`, `Method.accounts_signature`, `Program.takes_bodies`.
-/
namespace PackedMovie.Abc

open PackedMovie.Reader (Takes Yields)

/-! ### Entries -/

/-- The members of a list and what is within them. -/
def entriesOf {α : Type} (within : α → Nat) (members : List α) : Nat :=
  members.length + (members.map within).sum

theorem entriesOf_cons {α : Type} (within : α → Nat) (a : α) (rest : List α) :
    entriesOf within (a :: rest) = 1 + within a + entriesOf within rest := by
  rw [entriesOf, entriesOf, List.length_cons, List.map_cons, List.sum_cons]
  omega

/-- Of members with nothing within them there is only the list itself. -/
def noEntries {α : Type} (_ : α) : Nat := 0

@[simp] theorem entriesOf_noEntries {α : Type} (members : List α) :
    entriesOf noEntries members = members.length := by
  induction members with
  | nil => rfl
  | cons a rest ih =>
    rw [entriesOf_cons, ih, noEntries, List.length_cons, Nat.add_comm, Nat.add_zero]

def Multiname.entries (m : Multiname) : Nat := m.parameters.length

/-- The implicit entries do not count. -/
def ConstantPool.entries (p : ConstantPool) : Nat :=
  (p.ints.drop 1).length + (p.uints.drop 1).length + (p.doubles.drop 1).length
    + (p.strings.drop 1).length + (p.namespaces.drop 1).length
    + entriesOf List.length (p.namespaceSets.drop 1)
    + entriesOf Multiname.entries (p.multinames.drop 1)

def Trait.entries (t : Trait) : Nat := t.metadata.length

def Instance.entries (i : Instance) : Nat := i.interfaces.length + entriesOf Trait.entries i.traits

def Class.entries (c : Class) : Nat := entriesOf Trait.entries c.traits

def Script.entries (s : Script) : Nat := entriesOf Trait.entries s.traits

def Metadata.entries (m : Metadata) : Nat := m.items.length

/-- The bytes of the code count as well. -/
def Body.entries (b : Body) : Nat :=
  b.code.length + b.handlers.length + entriesOf Trait.entries b.traits

def Method.entries (m : Method) : Nat :=
  m.paramTypes.length + m.paramNames.length + m.options.length + (m.body.map Body.entries).getD 0

/-- The entries of all lists in a program, at any depth, and the bytes of its code. -/
def Program.entries (p : Program) : Nat :=
  p.constants.entries + entriesOf Method.entries p.methods + entriesOf Metadata.entries p.metadata
    + entriesOf Instance.entries p.instances + entriesOf Class.entries p.classes
    + entriesOf Script.entries p.scripts

/-! ### Numbers -/

theorem takes_integer : Takes Reader.integer fun run n =>
    Base128.IsRun run ∧ run.length ≤ maxGroups ∧ run.length = n := by
  intro c d run h
  obtain ⟨hrun, hlength, hrest⟩ :=
    groups_eq_ok (show Reader.groups c.offset maxGroups c = .ok run d from h)
  have hplace := (reads_integer hrun hlength).offset_eq hrest h
  exact ⟨run, hrest, hplace, hrun, hlength, rfl⟩

theorem length_write_u30_pos (n : UInt32) : 1 ≤ (Write.u30 n).length := by
  obtain ⟨k, hk⟩ := (Base128.isRun_encode n.toNat).exists_length
  have hlength : (Write.u30 n).length = k + 1 := hk
  omega

theorem takes_u30 : Takes Reader.u30 fun n k => (Write.u30 n).length ≤ k ∧ 1 ≤ k := by
  refine Takes.map (takes_integer.mono ?_)
  rintro run k ⟨hrun, -, rfl⟩
  have hvalue : (UInt32.ofNat (Base128.value run)).toNat ≤ Base128.value run := by
    rw [UInt32.toNat_ofNat']
    exact Nat.mod_le _ _
  have hlength := hrun.length_encode_le hvalue
  exact ⟨hlength, Nat.le_trans (length_write_u30_pos _) hlength⟩

/-- A run of fewer than five groups holds no number that would not fit. -/
theorem toInt_ofInt_signedValue {run : Bytes} (hrun : Base128.IsRun run)
    (h : run.length < maxGroups) :
    (Int32.ofInt (Base128.signedValue run)).toInt = Base128.signedValue run := by
  have hlength : run.length ≤ 4 := Nat.le_of_lt_succ h
  have hpow : Nat.pow 128 run.length ≤ Nat.pow 128 4 := Nat.pow_le_pow_right (by decide) hlength
  have hfour : Nat.pow 128 4 = 268435456 := rfl
  obtain ⟨hlow, hhigh⟩ := hrun.signedValue_range
  rw [Int32.toInt_ofInt]
  exact Int.bmod_eq_of_le_mul_two (by simp; omega) (by simp; omega)

theorem takes_s32 : Takes Reader.s32 fun n k => (Write.s32 n).length ≤ k ∧ 1 ≤ k := by
  refine Takes.map (takes_integer.mono ?_)
  rintro run k ⟨hrun, hgroups, rfl⟩
  obtain ⟨m, hm⟩ := hrun.exists_length
  refine ⟨?_, by omega⟩
  by_cases hshort : run.length < maxGroups
  · rw [if_pos hshort, Write.s32, toInt_ofInt_signedValue hrun hshort]
    exact hrun.length_encodeSigned_le
  · rw [if_neg hshort, Nat.le_antisymm hgroups (Nat.not_lt.1 hshort)]
    exact length_write_s32_le _

/-! ### Lists -/

section Lists

variable {α : Type} {r : Reader α} {write : α → Bytes} {within : α → Nat}

/-- What is read takes no fewer bytes than it is written in, and one for itself and for each entry
within it. -/
def Accounts (r : Reader α) (write : α → Bytes) (within : α → Nat) : Prop :=
  Takes r fun a n => (write a).length ≤ n ∧ 1 + within a ≤ n

theorem Accounts.times (h : Accounts r write within) (count : Nat) :
    Takes (Reader.times count r) fun as n => as.length = count ∧
      (as.flatMap write).length ≤ n ∧ entriesOf within as ≤ n := by
  refine Takes.times h ⟨Nat.le_refl 0, Nat.le_refl 0⟩ ?_ count
  intro a as m n ha has
  rw [List.flatMap_cons, List.length_append, entriesOf_cons]
  omega

theorem length_of_count {as : List α} {count : UInt32} (h : as.length = count.toNat) :
    Write.length as.length = Write.u30 count := by
  rw [Write.length, h, UInt32.ofNat_toNat]

theorem Accounts.counted (h : Accounts r write within) :
    Accounts (Reader.counted r) (Write.counted write) (entriesOf within) := by
  refine takes_u30.bind fun count m hcount => (h.times count.toNat).mono fun as n has => ?_
  rw [Write.counted, List.length_append, length_of_count has.1]
  omega

/-- Members with nothing within them are counted by the length of their list. -/
theorem Accounts.plain (h : Accounts r write noEntries) :
    Accounts (Reader.counted r) (Write.counted write) List.length :=
  h.counted.mono fun _ _ h => by rwa [entriesOf_noEntries] at h

theorem accounts_u30 : Accounts Reader.u30 Write.u30 noEntries := takes_u30

theorem accounts_indices :
    Accounts (Reader.counted Reader.u30) (Write.counted Write.u30) List.length :=
  accounts_u30.plain

theorem takes_numbers (count : Nat) :
    Takes (Reader.times count Reader.u30) fun ns n => ns.length = count ∧
      (ns.flatMap Write.u30).length ≤ n ∧ ns.length ≤ n :=
  (accounts_u30.times count).mono fun _ _ h => by rwa [entriesOf_noEntries] at h

/-- A list that is read under a flag is written under it. -/
theorem takes_under {lists : Reader (List α)} {write : List α → Bytes}
    (h : Takes lists fun as n => (write as).length ≤ n ∧ as.length ≤ n) (present : Bool) :
    Takes (PackedMovie.Reader.under present [] lists) fun as n =>
      (if present then write as else []).length ≤ n ∧ as.length ≤ n := by
  cases present with
  | true => exact h
  | false => exact Takes.pure ⟨Nat.le_refl 0, Nat.le_refl 0⟩

/-- The number of a list that stands in front of it is not counted under a flag. -/
theorem Accounts.under {lists : Reader (List α)} {write : List α → Bytes}
    (h : Accounts lists write List.length) (present : Bool) :
    Takes (PackedMovie.Reader.under present [] lists) fun as n =>
      (if present then write as else []).length ≤ n ∧ as.length ≤ n :=
  takes_under (h.mono fun _ _ h => by omega) present

/-- The members that a table stores. -/
def storedOf (r : Reader α) : Reader (List α) := do
  let length ← Reader.u30
  Reader.times (length.toNat - 1) r

theorem readTable_eq (implicit : α) (r : Reader α) :
    readTable implicit r = (fun stored => implicit :: stored) <$> storedOf r := by
  rw [readTable, storedOf, map_eq_pure_bind, bind_assoc]

theorem Accounts.stored (h : Accounts r write within) (implicit : α) :
    Takes (storedOf r) fun stored n => (writeTable write (implicit :: stored)).length ≤ n ∧
      1 + entriesOf within stored ≤ n := by
  refine takes_u30.bind fun length m hlength => (h.times (length.toNat - 1)).mono ?_
  intro stored n hstored
  rw [writeTable, List.length_append, List.drop_one, List.tail_cons, List.length_cons]
  split
  · have hzero : (Write.u30 0).length ≤ (Write.u30 length).length :=
      Base128.length_encode_mono (Nat.zero_le length.toNat)
    omega
  · rw [Write.length, show stored.length + 1 = length.toNat by omega, UInt32.ofNat_toNat]
    omega

theorem Accounts.table (h : Accounts r write within) (implicit : α) :
    Takes (readTable implicit r) fun table n => (writeTable write table).length ≤ n ∧
      1 + entriesOf within (table.drop 1) ≤ n := by
  rw [readTable_eq]
  exact (h.stored implicit).map

end Lists

/-! ### Constants -/

theorem accounts_s32 : Accounts Reader.s32 Write.s32 noEntries := takes_s32

theorem accounts_d64 : Accounts PackedMovie.Reader.u64 Write.d64 noEntries :=
  Takes.u64.mono fun bits n h => by
    rw [Write.d64, LittleEndian.length_encode, noEntries]
    omega

theorem Namespace.accounts : Accounts Namespace.read Namespace.write noEntries := by
  refine Takes.u8.bind fun kind _ hkind => takes_u30.bind fun name _ hname => Takes.pure ?_
  simp only [write, Write.u8, List.length_append, List.length_singleton, noEntries]
  omega

namespace Multiname

theorem accounts_readKind (kind : UInt8) :
    Takes (readKind kind) fun m n => m.write.length ≤ 1 + n ∧ m.entries ≤ n := by
  unfold readKind
  split
  · refine takes_u30.bind fun space _ hspace => takes_u30.bind fun name _ hname => Takes.pure ?_
    simp only [write, entries, parameters, Write.u8, List.length_append, List.length_cons,
      List.length_nil]
    omega
  split
  · refine takes_u30.bind fun name _ hname => Takes.pure ?_
    simp only [write, entries, parameters, Write.u8, List.length_append, List.length_cons,
      List.length_nil]
    omega
  split
  · refine Takes.pure ?_
    simp only [write, entries, parameters, Write.u8, List.length_cons, List.length_nil]
    omega
  split
  · refine takes_u30.bind fun name _ hname => takes_u30.bind fun set _ hset => Takes.pure ?_
    simp only [write, entries, parameters, Write.u8, List.length_append, List.length_cons,
      List.length_nil]
    omega
  split
  · refine takes_u30.bind fun set _ hset => Takes.pure ?_
    simp only [write, entries, parameters, Write.u8, List.length_append, List.length_cons,
      List.length_nil]
    omega
  split
  · refine takes_u30.bind fun base _ hbase => accounts_indices.bind fun names _ hnames => ?_
    refine Takes.pure ?_
    simp only [write, entries, parameters, Write.u8, List.length_append, List.length_cons,
      List.length_nil]
    omega
  · exact Takes.throw _ _

theorem accounts : Accounts Multiname.read write entries :=
  Takes.u8.bind fun kind m hm => (accounts_readKind kind).mono fun name n hname => by omega

end Multiname

/-! ### Members -/

namespace TraitKind

theorem takes_value : Takes readValue fun value n => (writeValue value).length ≤ n := by
  refine takes_u30.bind fun index _ hindex => ?_
  split
  · rename_i hzero
    rw [hzero] at hindex
    exact Takes.pure hindex.1
  · refine Takes.u8.bind fun kind _ hkind => Takes.pure ?_
    simp only [writeValue, Write.u8, List.length_append, List.length_singleton]
    omega

theorem takes_slot {make : UInt32 → UInt32 → Option (UInt32 × UInt8) → TraitKind}
    (hmake : ∀ slotId typeName value, (make slotId typeName value).write =
      Write.u30 slotId ++ Write.u30 typeName ++ writeValue value) :
    Takes (readSlot make) fun k n => k.write.length ≤ n := by
  refine takes_u30.bind fun slotId _ hslot => takes_u30.bind fun typeName _ htype => ?_
  refine takes_value.bind fun value _ hvalue => Takes.pure ?_
  rw [hmake]
  simp only [List.length_append]
  omega

theorem takes_pair {make : UInt32 → UInt32 → TraitKind}
    (hmake : ∀ a b, (make a b).write = Write.u30 a ++ Write.u30 b) :
    Takes (readPair make) fun k n => k.write.length ≤ n := by
  refine takes_u30.bind fun a _ ha => takes_u30.bind fun b _ hb => Takes.pure ?_
  rw [hmake, List.length_append]
  omega

theorem takes (code : UInt8) : Takes (TraitKind.read code) fun k n => k.write.length ≤ n := by
  unfold TraitKind.read
  split
  · exact takes_slot fun _ _ _ => rfl
  split
  · exact takes_pair fun _ _ => rfl
  split
  · exact takes_pair fun _ _ => rfl
  split
  · exact takes_pair fun _ _ => rfl
  split
  · exact takes_pair fun _ _ => rfl
  split
  · exact takes_pair fun _ _ => rfl
  split
  · exact takes_slot fun _ _ _ => rfl
  · exact Takes.throw _ _

end TraitKind

namespace Trait

theorem accounts : Accounts Trait.read write entries := by
  refine takes_u30.bind fun name _ hname => Takes.u8.bind fun kindByte _ hbyte => ?_
  refine (TraitKind.takes _).bind fun kind _ hkind => ?_
  refine (accounts_indices.under _).bind fun metadata _ hmetadata => Takes.pure ?_
  simp only [write, entries, Write.u8, List.length_append, List.length_singleton]
  omega

theorem accounts_all : Accounts readAll writeAll (entriesOf entries) := accounts.counted

end Trait

theorem Instance.accounts : Accounts Instance.read write entries := by
  refine takes_u30.bind fun name _ hname => takes_u30.bind fun superName _ hsuper => ?_
  refine Takes.u8.bind fun flags _ hflags => ?_
  have hprotected : Takes
      (PackedMovie.Reader.under (hasFlag flags protectedFlag) none (some <$> Reader.u30))
      fun space n => (if hasFlag flags protectedFlag then Write.u30 (space.getD 0) else []).length
        ≤ n := by
    cases hasFlag flags protectedFlag with
    | true => exact Takes.map (takes_u30.mono fun _ _ h => h.1)
    | false => exact Takes.pure (Nat.le_refl 0)
  refine hprotected.bind fun space _ hspace => accounts_indices.bind fun interfaces _ hfaces => ?_
  refine takes_u30.bind fun iinit _ hinit => Trait.accounts_all.bind fun traits _ htraits => ?_
  refine Takes.pure ?_
  simp only [write, entries, Write.u8, List.length_append, List.length_singleton]
  rw [show hasProtected _ = hasFlag flags protectedFlag from rfl]
  omega

theorem Class.accounts : Accounts Class.read write entries := by
  refine takes_u30.bind fun cinit _ hinit => Trait.accounts_all.bind fun traits _ htraits => ?_
  refine Takes.pure ?_
  simp only [write, entries, List.length_append]
  omega

theorem Script.accounts : Accounts Script.read write entries := by
  refine takes_u30.bind fun init _ hinit => Trait.accounts_all.bind fun traits _ htraits => ?_
  refine Takes.pure ?_
  simp only [write, entries, List.length_append]
  omega

theorem Metadata.accounts : Accounts Metadata.read write entries := by
  refine takes_u30.bind fun name _ hname => takes_u30.bind fun count _ hcount => ?_
  refine (takes_numbers count.toNat).bind fun keys _ hkeys => ?_
  refine (takes_numbers count.toNat).bind fun values _ hvalues => Takes.pure ?_
  have hsame : keys.length = values.length := hkeys.1.trans hvalues.1.symm
  have hlength : (keys.zip values).length = count.toNat := by
    rw [List.length_zip, hkeys.1, hvalues.1, Nat.min_self]
  have hfst : (keys.zip values).flatMap (fun item => Write.u30 item.1) = keys.flatMap Write.u30 := by
    rw [← List.flatMap_map Prod.fst, List.map_fst_zip (Nat.le_of_eq hsame)]
  have hsnd : (keys.zip values).flatMap (fun item => Write.u30 item.2) =
      values.flatMap Write.u30 := by
    rw [← List.flatMap_map Prod.snd, List.map_snd_zip (Nat.le_of_eq hsame.symm)]
  simp only [write, entries, hfst, hsnd, length_of_count hlength, List.length_append]
  omega

/-! ### Methods -/

theorem OptionalValue.accounts : Accounts OptionalValue.read write noEntries := by
  refine takes_u30.bind fun value _ hvalue => Takes.u8.bind fun kind _ hkind => Takes.pure ?_
  simp only [write, noEntries, Write.u8, List.length_append, List.length_singleton]
  omega

theorem Handler.accounts : Accounts Handler.read write noEntries := by
  refine takes_u30.bind fun start _ hstart => takes_u30.bind fun stop _ hstop => ?_
  refine takes_u30.bind fun target _ htarget => takes_u30.bind fun type _ htype => ?_
  refine takes_u30.bind fun name _ hname => Takes.pure ?_
  simp only [write, noEntries, List.length_append]
  omega

/-- A record of a body also takes the bytes of its method's index. -/
theorem Body.accounts : Accounts Body.read (fun record => record.2.write record.1)
    fun record => record.2.entries := by
  refine takes_u30.bind fun method _ hmethod => takes_u30.bind fun maxStack _ hstack => ?_
  refine takes_u30.bind fun localCount _ hlocals => takes_u30.bind fun initDepth _ hinit => ?_
  refine takes_u30.bind fun maxDepth _ hmax => takes_u30.bind fun codeLength _ hlength => ?_
  refine (Takes.bytes codeLength.toNat).bind fun code _ hcode => ?_
  refine Handler.accounts.plain.bind fun handlers _ hhandlers => ?_
  refine Trait.accounts_all.bind fun traits _ htraits => Takes.pure ?_
  simp only [write, entries, length_of_count hcode.1, List.length_append]
  omega

theorem Method.accounts_signature : Accounts readSignature writeSignature entries := by
  refine takes_u30.bind fun paramCount _ hcount => takes_u30.bind fun returnType _ hreturn => ?_
  refine (takes_numbers paramCount.toNat).bind fun paramTypes _ htypes => ?_
  refine takes_u30.bind fun name _ hname => Takes.u8.bind fun flags _ hflags => ?_
  refine (OptionalValue.accounts.plain.under _).bind fun options _ hoptions => ?_
  have hnumbers := (takes_numbers paramCount.toNat).mono fun _ _ h => h.2
  refine (takes_under hnumbers _).bind fun names _ hnames => Takes.pure ?_
  simp only [writeSignature, entries, Write.u8, length_of_count htypes.1, List.length_append,
    List.length_singleton, Option.map_none, Option.getD_none]
  rw [show hasOptional _ = hasFlag flags hasOptionalFlag from rfl,
    show hasParamNames _ = hasFlag flags hasParamNamesFlag from rfl]
  omega

theorem Method.yields_bare : Yields readSignature fun m => m.body = none := by
  refine (Yields.trivial _).bind fun _ _ => (Yields.trivial _).bind fun _ _ => ?_
  refine (Yields.trivial _).bind fun _ _ => (Yields.trivial _).bind fun _ _ => ?_
  refine (Yields.trivial _).bind fun _ _ => (Yields.trivial _).bind fun _ _ => ?_
  exact (Yields.trivial _).bind fun _ _ => Yields.pure rfl

/-! ### Bodies -/

namespace Program

/-- Records are read one after another and attached in this order. -/
theorem takes_records (count : Nat) (methods : List Method) :
    Takes (readBodies count methods) fun attached n => ∃ records : List (UInt32 × Body),
      records.length = count ∧ attachAll records methods = .ok attached ∧
        (records.flatMap fun record => record.2.write record.1).length ≤ n ∧
        (records.map fun record => record.2.entries).sum ≤ n := by
  induction count generalizing methods with
  | zero => exact Takes.pure ⟨[], rfl, rfl, Nat.le_refl 0, Nat.le_refl 0⟩
  | succ count ih =>
    refine Body.accounts.bind fun record m hrecord => ?_
    dsimp only at hrecord
    split
    · rename_i more hattach
      refine (ih more).mono ?_
      rintro attached n ⟨records, hcount, hall, hwritten, hentries⟩
      refine ⟨record :: records, by rw [List.length_cons, hcount], ?_, ?_, ?_⟩
      · rw [attachAll, List.foldlM_cons, hattach]
        exact hall
      · rw [List.flatMap_cons, List.length_append]
        omega
      · rw [List.map_cons, List.sum_cons]
        omega
    · exact Takes.throw _ _

theorem foldl_of_attachAll {records : List (UInt32 × Body)} {methods attached : List Method}
    (h : attachAll records methods = .ok attached) :
    records.foldl supersede methods = attached := by
  by_cases hall : ∀ record ∈ records, HasMethod methods.length record
  · rw [attachAll_eq_ok hall] at h
    exact Except.ok.inj h
  · obtain ⟨before, bad, after, rfl, hbefore, hbad⟩ := exists_first_bad hall
    rw [attachAll_eq_error hbefore hbad] at h
    cases h

theorem map_withoutBody_supersede (methods : List Method) (record : UInt32 × Body) :
    (supersede methods record).map Method.withoutBody = methods.map Method.withoutBody := by
  apply List.ext_getElem?
  intro i
  rw [List.getElem?_map, List.getElem?_map, supersede, List.getElem?_modify]
  cases methods[i]? with
  | none => rfl
  | some m =>
    simp only [Option.map_eq_map, Option.map_some]
    split <;> rfl

theorem sum_bodies_cons (weight : UInt32 × Body → Nat) (start : Nat) (m : Method)
    (rest : List Method) :
    ((bodies start (m :: rest)).map weight).sum =
      (m.body.map fun body => weight (UInt32.ofNat start, body)).getD 0 +
        ((bodies (start + 1) rest).map weight).sum := by
  rw [bodies]
  cases m.body with
  | none => exact (Nat.zero_add _).symm
  | some body => exact List.sum_cons

/-- A body takes the place of one or none. -/
theorem sum_bodies_modify (weight : UInt32 × Body → Nat) (body : Body) (start i : Nat)
    (methods : List Method) :
    ((bodies start (methods.modify i fun m => { m with body := some body })).map weight).sum ≤
      ((bodies start methods).map weight).sum + weight (UInt32.ofNat (start + i), body) := by
  induction methods generalizing start i with
  | nil =>
    rw [List.modify_nil]
    exact Nat.le_add_right _ _
  | cons m rest ih =>
    cases i with
    | zero =>
      rw [List.modify_zero_cons, sum_bodies_cons, sum_bodies_cons]
      simp only [Option.map_some, Option.getD_some, Nat.add_zero]
      omega
    | succ i =>
      have hrest := ih (start + 1) i
      rw [show start + 1 + i = start + (i + 1) by omega] at hrest
      rw [List.modify_succ_cons, sum_bodies_cons, sum_bodies_cons]
      omega

theorem sum_bodies_supersede (weight : UInt32 × Body → Nat) (methods : List Method)
    (record : UInt32 × Body) :
    ((bodies 0 (supersede methods record)).map weight).sum ≤
      ((bodies 0 methods).map weight).sum + weight record := by
  have hrecord := sum_bodies_modify weight record.2 0 record.1.toNat methods
  rwa [Nat.zero_add, UInt32.ofNat_toNat] at hrecord

theorem sum_bodies_foldl (weight : UInt32 × Body → Nat) (records : List (UInt32 × Body))
    (methods : List Method) :
    ((bodies 0 (records.foldl supersede methods)).map weight).sum ≤
      ((bodies 0 methods).map weight).sum + (records.map weight).sum := by
  induction records generalizing methods with
  | nil => exact Nat.le_refl _
  | cons record records ih =>
    have hrecord := sum_bodies_supersede weight methods record
    have hrest := ih (supersede methods record)
    rw [List.foldl_cons, List.map_cons, List.sum_cons]
    omega

theorem bodies_of_bare {methods : List Method} (h : ∀ m ∈ methods, m.body = none) (start : Nat) :
    bodies start methods = [] := by
  induction methods generalizing start with
  | nil => rfl
  | cons m rest ih =>
    rw [bodies, h m List.mem_cons_self]
    exact ih (fun n hn => h n (List.mem_cons_of_mem m hn)) (start + 1)

/-- The entries of the signatures and those of the bodies. -/
theorem entriesOf_methods (start : Nat) (methods : List Method) :
    entriesOf Method.entries methods = entriesOf Method.entries (methods.map Method.withoutBody) +
      ((bodies start methods).map fun record => record.2.entries).sum := by
  induction methods generalizing start with
  | nil => rfl
  | cons m rest ih =>
    have hbody : m.entries =
        m.withoutBody.entries + (m.body.map fun body => body.entries).getD 0 := rfl
    rw [entriesOf_cons, List.map_cons, entriesOf_cons, ih (start + 1), hbody, sum_bodies_cons]
    dsimp only
    omega

theorem takes_bodies {methods : List Method} (hbare : ∀ m ∈ methods, m.body = none) (count : Nat) :
    Takes (readBodies count methods) fun attached n =>
      attached.map Method.withoutBody = methods ∧ (bodies 0 attached).length ≤ count ∧
        ((bodies 0 attached).flatMap fun record => record.2.write record.1).length ≤ n ∧
        entriesOf Method.entries attached ≤ entriesOf Method.entries methods + n := by
  refine (takes_records count methods).mono ?_
  rintro attached n ⟨records, rfl, hattached, hwritten, hentries⟩
  obtain rfl := foldl_of_attachAll hattached
  have hsame : (records.foldl supersede methods).map Method.withoutBody = methods := by
    have hkept : (records.foldl supersede methods).map Method.withoutBody =
        methods.map Method.withoutBody :=
      History.foldl_kept map_withoutBody_supersede methods records
    rw [hkept, map_withoutBody hbare]
  have hsum (weight : UInt32 × Body → Nat) :
      ((bodies 0 (records.foldl supersede methods)).map weight).sum ≤ (records.map weight).sum := by
    have hall := sum_bodies_foldl weight records methods
    rwa [bodies_of_bare hbare, List.map_nil, List.sum_nil, Nat.zero_add] at hall
  refine ⟨hsame, ?_, ?_, ?_⟩
  · have hcount := hsum fun _ => 1
    simpa using hcount
  · rw [List.length_flatMap] at hwritten ⊢
    exact Nat.le_trans (hsum _) hwritten
  · rw [entriesOf_methods 0, hsame]
    exact Nat.add_le_add_left (Nat.le_trans (hsum _) hentries) _

end Program

end PackedMovie.Abc
