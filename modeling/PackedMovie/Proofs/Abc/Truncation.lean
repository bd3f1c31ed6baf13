import PackedMovie.Proofs.Abc.RoundTrip
import PackedMovie.Proofs.Bytes.Stable

/-!
# Cut and extended files

No reader of the format looks beyond what it takes. So a file that is read, or that is refused for
what it says, is read or refused in the same way with bytes behind it, and a written program of which
bytes are missing is refused for want of them and for nothing else.

Main statement: `Program.parse_extended_and_cut`.
-/
namespace PackedMovie.Abc

open PackedMovie.Reader (Stable)

/-- What can be wrong with the bytes of a file, other than that there are too few of them. -/
inductive IsFault : Error → Prop
  | integer (offset : Nat) : IsFault (.invalidInteger offset)
  | multinameKind (kind : UInt8) : IsFault (.invalidMultinameKind kind)
  | traitKind (kind : UInt8) : IsFault (.invalidTraitKind kind)
  | method (index : UInt32) (length : Nat) : IsFault (.indexOutOfRange .methods index length)

/-! ### Fields -/

theorem stable_groups (start count : Nat) : Stable IsFault (Reader.groups start count) := by
  induction count with
  | zero => exact Stable.throw (.integer start)
  | succ count ih =>
    refine Stable.u8.bind fun byte => ?_
    split
    · exact Stable.pure _
    · exact ih.bind fun _ => Stable.pure _

theorem stable_integer : Stable IsFault Reader.integer :=
  Stable.get_bind fun offset => stable_groups offset maxGroups

theorem stable_u30 : Stable IsFault Reader.u30 := stable_integer.map _

theorem stable_s32 : Stable IsFault Reader.s32 := stable_integer.map _

theorem stable_one {α : Type} (make : UInt32 → α) :
    Stable IsFault (do let a ← Reader.u30; pure (make a)) :=
  stable_u30.bind fun _ => Stable.pure _

theorem stable_two {α : Type} (make : UInt32 → UInt32 → α) :
    Stable IsFault (do let a ← Reader.u30; let b ← Reader.u30; pure (make a b)) :=
  stable_u30.bind fun a => stable_one (make a)

theorem stable_string : Stable IsFault Reader.string :=
  stable_u30.bind fun _ => (Stable.bytes _).bind fun _ => Stable.pure _

theorem stable_counted {α : Type} {r : Reader α} (hr : Stable IsFault r) :
    Stable IsFault (Reader.counted r) :=
  stable_u30.bind fun count => hr.times count.toNat

/-! ### Constants -/

theorem stable_table {α : Type} (implicit : α) {r : Reader α} (hr : Stable IsFault r) :
    Stable IsFault (readTable implicit r) :=
  stable_u30.bind fun _ => (hr.times _).bind fun _ => Stable.pure _

theorem Namespace.stable : Stable IsFault Namespace.read :=
  Stable.u8.bind fun _ => stable_one _

namespace Multiname

theorem stable_readKind (kind : UInt8) : Stable IsFault (readKind kind) := by
  unfold readKind
  split
  · exact stable_two _
  split
  · exact stable_one _
  split
  · exact Stable.pure _
  split
  · exact stable_two _
  split
  · exact stable_one _
  split
  · exact stable_u30.bind fun _ => (stable_counted stable_u30).bind fun _ => Stable.pure _
  · exact Stable.throw (.multinameKind kind)

theorem stable : Stable IsFault Multiname.read := Stable.u8.bind stable_readKind

end Multiname

theorem ConstantPool.stable : Stable IsFault ConstantPool.read := by
  refine (stable_table 0 stable_s32).bind fun _ => ?_
  refine (stable_table 0 stable_u30).bind fun _ => ?_
  refine (stable_table 0 Stable.u64).bind fun _ => ?_
  refine (stable_table "" stable_string).bind fun _ => ?_
  refine (stable_table _ Namespace.stable).bind fun _ => ?_
  refine (stable_table [] (stable_counted stable_u30)).bind fun _ => ?_
  exact (stable_table _ Multiname.stable).bind fun _ => Stable.pure _

/-! ### Members -/

namespace TraitKind

theorem stable_value : Stable IsFault readValue := by
  refine stable_u30.bind fun index => ?_
  split
  · exact Stable.pure none
  · exact Stable.u8.bind fun _ => Stable.pure _

theorem stable_slot (make : UInt32 → UInt32 → Option (UInt32 × UInt8) → TraitKind) :
    Stable IsFault (readSlot make) :=
  stable_u30.bind fun _ => stable_u30.bind fun _ => stable_value.bind fun _ => Stable.pure _

theorem stable_pair (make : UInt32 → UInt32 → TraitKind) : Stable IsFault (readPair make) :=
  stable_u30.bind fun _ => stable_u30.bind fun _ => Stable.pure _

theorem stable (code : UInt8) : Stable IsFault (TraitKind.read code) := by
  unfold TraitKind.read
  split
  · exact stable_slot _
  split
  · exact stable_pair _
  split
  · exact stable_pair _
  split
  · exact stable_pair _
  split
  · exact stable_pair _
  split
  · exact stable_pair _
  split
  · exact stable_slot _
  · exact Stable.throw (.traitKind code)

end TraitKind

namespace Trait

theorem stable : Stable IsFault Trait.read := by
  refine stable_u30.bind fun _ => Stable.u8.bind fun _ => ?_
  refine (TraitKind.stable _).bind fun _ => ?_
  exact ((stable_counted stable_u30).under _ _).bind fun _ => Stable.pure _

theorem stable_all : Stable IsFault Trait.readAll := stable_counted stable

end Trait

theorem Instance.stable : Stable IsFault Instance.read := by
  refine stable_u30.bind fun _ => stable_u30.bind fun _ => Stable.u8.bind fun _ => ?_
  refine ((stable_u30.map some).under _ none).bind fun _ => ?_
  refine (stable_counted stable_u30).bind fun _ => stable_u30.bind fun _ => ?_
  exact Trait.stable_all.bind fun _ => Stable.pure _

theorem Class.stable : Stable IsFault Class.read :=
  stable_u30.bind fun _ => Trait.stable_all.bind fun _ => Stable.pure _

theorem Script.stable : Stable IsFault Script.read :=
  stable_u30.bind fun _ => Trait.stable_all.bind fun _ => Stable.pure _

theorem Metadata.stable : Stable IsFault Metadata.read := by
  refine stable_u30.bind fun _ => stable_u30.bind fun count => ?_
  refine (stable_u30.times count.toNat).bind fun _ => ?_
  exact (stable_u30.times count.toNat).bind fun _ => Stable.pure _

/-! ### Methods -/

theorem OptionalValue.stable : Stable IsFault OptionalValue.read :=
  stable_u30.bind fun _ => Stable.u8.bind fun _ => Stable.pure _

theorem Handler.stable : Stable IsFault Handler.read := by
  refine stable_u30.bind fun _ => stable_u30.bind fun _ => stable_u30.bind fun _ => ?_
  exact stable_u30.bind fun _ => stable_u30.bind fun _ => Stable.pure _

theorem Body.stable : Stable IsFault Body.read := by
  refine stable_u30.bind fun _ => stable_u30.bind fun _ => stable_u30.bind fun _ => ?_
  refine stable_u30.bind fun _ => stable_u30.bind fun _ => ?_
  refine stable_u30.bind fun length => (Stable.bytes length.toNat).bind fun _ => ?_
  refine (stable_counted Handler.stable).bind fun _ => ?_
  exact Trait.stable_all.bind fun _ => Stable.pure _

theorem Method.stable_signature : Stable IsFault Method.readSignature := by
  refine stable_u30.bind fun count => stable_u30.bind fun _ => ?_
  refine (stable_u30.times count.toNat).bind fun _ => ?_
  refine stable_u30.bind fun _ => Stable.u8.bind fun _ => ?_
  refine ((stable_counted OptionalValue.stable).under _ []).bind fun _ => ?_
  exact ((stable_u30.times count.toNat).under _ []).bind fun _ => Stable.pure _

/-! ### Whole programs -/

namespace Program

theorem isFault_attach {methods : List Method} {index : UInt32} {body : Body} {e : Error}
    (h : attach methods index body = .error e) : IsFault e := by
  unfold attach at h
  split at h
  · cases h
  · cases h
    exact .method index methods.length

theorem stable_bodies (count : Nat) (methods : List Method) :
    Stable IsFault (readBodies count methods) := by
  induction count generalizing methods with
  | zero => exact Stable.pure methods
  | succ count ih =>
    refine Body.stable.bind fun record => ?_
    split
    · exact ih _
    · rename_i hattach
      exact Stable.throw (isFault_attach hattach)

theorem stable : Stable IsFault Program.read := by
  refine Stable.u16.bind fun _ => Stable.u16.bind fun _ => ?_
  refine ConstantPool.stable.bind fun _ => ?_
  refine (stable_counted Method.stable_signature).bind fun signatures => ?_
  refine (stable_counted Metadata.stable).bind fun _ => ?_
  refine stable_u30.bind fun classCount => ?_
  refine (Instance.stable.times classCount.toNat).bind fun _ => ?_
  refine (Class.stable.times classCount.toNat).bind fun _ => ?_
  refine (stable_counted Script.stable).bind fun _ => ?_
  refine stable_u30.bind fun bodyCount => ?_
  exact (stable_bodies bodyCount.toNat signatures).bind fun _ => Stable.pure _

/-- Bytes behind a file change nothing, be it read or refused for a fault of its bytes. A written
program of which bytes are missing at the end is refused for want of them. -/
theorem parse_extended_and_cut :
    (∀ bytes, parse bytes ≠ .error .unexpectedEnd →
      (∀ more, parse (bytes ++ more) = parse bytes) ∧ ∀ e, parse bytes = .error e → IsFault e) ∧
      ∀ p : Program, p.WellFormed → ∀ front, front <+: p.write → front ≠ p.write →
        parse front = .error .unexpectedEnd := by
  constructor
  · intro bytes h
    exact stable.runOn_append h
  · intro p hp front hfront hne
    exact Reader.runOn_of_runsOut ((reads hp).runsOut stable hfront hne 0)

/-- A file whose first count does not end. -/
def endlessCount : Bytes := [0x10, 0x00, 0x2E, 0x00, 0x80, 0x80, 0x80, 0x80, 0x80]

/-- A count that does not end is refused whatever follows, and no file can do without its last byte. -/
theorem parse_extended_and_cut_endlessCount :
    (parse endlessCount = .error (.invalidInteger 4) ∧
      parse (endlessCount ++ embellished.write) = .error (.invalidInteger 4)) ∧
      embellished.WellFormed ∧ parse embellished.write.dropLast = .error .unexpectedEnd := by
  have hparse : parse endlessCount = .error (.invalidInteger 4) := rfl
  have hmore := (parse_extended_and_cut.1 endlessCount (by simp [hparse])).1 embellished.write
  have hform : embellished.WellFormed := by decide +kernel
  have hne : embellished.write.dropLast ≠ embellished.write := by decide +kernel
  exact ⟨⟨hparse, hmore.trans hparse⟩, hform,
    parse_extended_and_cut.2 embellished hform _ (List.dropLast_prefix _) hne⟩

end Program

end PackedMovie.Abc
