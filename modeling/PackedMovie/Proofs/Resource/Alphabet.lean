import PackedMovie.Proofs.Resource.AccessorTable
import PackedMovie.Proofs.Resource.Payloads
import PackedMovie.Proofs.Resource.Strictness

/-!
# Names in the letters of a keymap

Accessors pick single bytes of the keymap, and a name is any sequence of such bytes. It is a text
for sure if each byte is a character by itself; of a keymap with longer characters a name can hold
parts.

Main statement: `Unpacker.resolveOrder_ascii`.
-/
namespace PackedMovie.Resource

open PackedMovie.Abc (Method Trait)
open PackedMovie.Code (Instruction)

/-! ### From the keymap to the accessors -/

namespace Accessors

variable {traits : List Trait} {methods : List Method} {keymap : Keymap}

theorem mem_keymap_of_build {table : Accessors} (h : build traits methods keymap = .ok table)
    {name : UInt32} {byte : UInt8} (hbyte : table.get? name = some byte) :
    byte ∈ keymap.bytes := by
  unfold build at h
  split at h
  · cases h
    cases hbyte
  · rw [get?_collect h, Dictionary.get?_empty, Option.or_none] at hbyte
    obtain ⟨t, -, hpicked⟩ := List.exists_of_findSome?_eq_some hbyte
    obtain ⟨-, body, is, push, index, -, -, -, -, hletter⟩ := byteFor?_eq_some_iff.1 hpicked
    exact List.mem_of_getElem? hletter

theorem ne_invalidName_of_build {e : Error} (h : build traits methods keymap = .error e)
    (cause : Utf8.Malformed) : e ≠ .invalidName cause := by
  unfold build at h
  split at h
  · cases h
  · obtain ⟨before, t, after, -, -, hoffends⟩ := collect_eq_error_iff.1 h
    rintro rfl
    cases hoffends

end Accessors

/-! ### From the accessors to the names -/

namespace Order

open PackedMovie.Resource.Chain

variable {accessors : Accessors}

theorem mem_mapped {chain : List CallUnit} {b : UInt8} (h : b ∈ mapped accessors chain) :
    ∃ name, accessors.get? name = some b := by
  obtain ⟨unit, -, hbyte⟩ := List.mem_filterMap.1 h
  exact ⟨unit.name, hbyte⟩

/-- Whatever the chains are, all that is found in them was picked by accessors. -/
theorem mem_names {target : Bytes} {chains : List (List CallUnit)} {bytes : Bytes}
    (h : bytes ∈ names target accessors chains) {b : UInt8} (hb : b ∈ bytes) :
    ∃ name, accessors.get? name = some b := by
  fun_induction names target accessors chains with
  | case1 => cases h
  | case2 chain chains _ unit units _ ih =>
    rcases List.mem_cons.1 h with rfl | h
    · exact mem_mapped hb
    · exact ih h
  | case3 chain _ _ =>
    rw [List.mem_singleton.1 h] at hb
    cases hb
  | case4 chain _ _ next others ih =>
    rcases List.mem_cons.1 h with rfl | h
    · exact mem_mapped hb
    · exact ih h
  | case5 chain chains _ ih => exact ih h

/-- Names of bytes below 0x80 are texts of these bytes. -/
theorem exists_texts_of_ascii {found : List Bytes} (h : ∀ bytes ∈ found, ∀ b ∈ bytes, b < 0x80) :
    ∃ order : List String, order.map Utf8.encode = found := by
  induction found with
  | nil => exact ⟨[], rfl⟩
  | cons bytes found ih =>
    obtain ⟨hbytes, hfound⟩ := List.forall_mem_cons.1 h
    obtain ⟨text, rfl⟩ := Utf8.exists_encode_of_ascii hbytes
    obtain ⟨order, rfl⟩ := ih hfound
    exact ⟨text :: order, rfl⟩

/-- If accessors pick bytes below 0x80 only, all names are texts of bytes that they pick, and a
search can only be refused for a call without an accessor. -/
theorem resolve_ascii (target : Bytes) (strict : Bool) (is : List Instruction)
    (h : ∀ name byte, accessors.get? name = some byte → byte < 0x80) :
    match resolve ⟨target, strict, accessors⟩ is with
    | .ok order => ∀ text ∈ order, ∀ b ∈ Utf8.encode text, ∃ name, accessors.get? name = some b
    | .error e => ∃ name address, e = .unmappedAccessor name address := by
  have hfound : ∀ bytes ∈ names target accessors (split (behindSuper is)),
      ∀ b ∈ bytes, b < 0x80 := by
    intro bytes hbytes b hb
    obtain ⟨name, hname⟩ := mem_names hbytes hb
    exact h name b hname
  obtain ⟨order, hbytes⟩ := exists_texts_of_ascii hfound
  have hlenient : namesFrom ⟨target, false, accessors⟩ (behindSuper is) = .ok order := by
    rw [namesFrom_eq _ fun hstrict => absurd hstrict Bool.false_ne_true]
    rw [← hbytes, mapM_nameText_encode]
  have hfollows : Follows accessors (behindSuper is)
      (namesFrom ⟨target, strict, accessors⟩ (behindSuper is)) (.ok order) := by
    cases strict with
    | false => exact .inl hlenient
    | true =>
      rw [← hlenient]
      exact follows_namesFrom (behindSuper is)
  rw [resolve_eq_namesFrom]
  rcases hfollows with hsame | ⟨e, ⟨unit, -, -, rfl⟩, hrefused⟩
  · rw [hsame]
    intro text htext b hb
    have hmem : Utf8.encode text ∈ order.map Utf8.encode := List.mem_map_of_mem htext
    rw [hbytes] at hmem
    exact mem_names hmem hb
  · rw [hrefused]
    exact ⟨unit.name, unit.address, rfl⟩

end Order

/-! ### From a class to its names -/

namespace Resolution

open PackedMovie.Abc (Program)

variable {o : Options} {p : Program} {keymap : Keymap}

/-- The keymap that the class of the options has. -/
def Extracts (o : Options) (p : Program) (keymap : Keymap) : Prop :=
  ∃ inst static cinit, p.classAt o.classIndex = .ok (inst, static) ∧
    instructionsOf p static.cinit = .ok cinit ∧
    Keymap.extract cinit p.constants.strings = .ok keymap

theorem IsFound.keymap_eq {r : Resolution} (h : IsFound o p r) (hkeymap : Extracts o p keymap) :
    r.keymap = keymap := by
  obtain ⟨inst, static, cinit, iinit, hclass, hcinit, hextract, -⟩ := h
  obtain ⟨inst', static', cinit', hclass', hcinit', hextract'⟩ := hkeymap
  rw [hclass] at hclass'
  cases hclass'
  rw [hcinit] at hcinit'
  cases hcinit'
  rw [hextract] at hextract'
  cases hextract'
  rfl

/-- Behind the keymap a resolution fails if the keymap is missed, with the accessors, with the
constructor's bytecode or with the names. -/
theorem error_cases {e : Error} (h : resolve o p = .error e) (hkeymap : Extracts o p keymap) :
    e = .missingKeymap ∨
      (∃ traits methods, Accessors.build traits methods keymap = .error e) ∨
      (∃ cause, e = .abc cause) ∨
      ∃ traits methods accessors is, Accessors.build traits methods keymap = .ok accessors ∧
        Order.resolve ⟨Utf8.encode o.target, o.strict, accessors⟩ is = .error e := by
  obtain ⟨inst, static, cinit, hclass, hcinit, hextract⟩ := hkeymap
  unfold resolve at h
  replace h := eq_error_of_bind (ofAbc_eq_ok_iff.2 hclass) h
  replace h := eq_error_of_bind hcinit h
  replace h := eq_error_of_bind hextract h
  simp only at h
  split at h
  · cases h
    exact .inl rfl
  rcases bind_eq_error_iff.1 h with h | ⟨accessors, haccessors, h⟩
  · exact .inr (.inl ⟨_, _, h⟩)
  rcases bind_eq_error_iff.1 h with h | ⟨iinit, -, h⟩
  · obtain ⟨cause, -, he⟩ := ofAbc_eq_error_iff.1 h
    exact .inr (.inr (.inl ⟨cause, he⟩))
  rcases bind_eq_error_iff.1 h with h | ⟨_, -, h⟩
  · exact .inr (.inr (.inr ⟨_, _, _, _, haccessors, h⟩))
  · cases h

end Resolution

namespace Unpacker

open PackedMovie.Resource.Resolution (Extracts instructionsOf)

/-- In the letters of a keymap of bytes below 0x80, whatever the constructor calls is a text. -/
theorem resolveOrder_ascii {u : Unpacker} {keymap : Keymap}
    (hkeymap : Extracts u.options u.frame.program keymap)
    (hascii : ∀ b ∈ keymap.bytes, b < 0x80) :
    match u.resolveOrder.1 with
    | .ok order => ∀ name ∈ order, ∀ b ∈ Utf8.encode name, b ∈ keymap.bytes
    | .error e => ∀ cause, e ≠ .invalidName cause := by
  have hletters {traits methods} {accessors : Accessors} {name : UInt32} {b : UInt8}
      (htable : Accessors.build traits methods keymap = .ok accessors)
      (hb : accessors.get? name = some b) : b < 0x80 :=
    hascii b (Accessors.mem_keymap_of_build htable hb)
  cases hresolve : Resolution.resolve u.options u.frame.program with
  | error e =>
    rw [resolveOrder, hresolve]
    rintro cause rfl
    rcases Resolution.error_cases hresolve hkeymap with
      h | ⟨traits, methods, htable⟩ | ⟨_, h⟩ | ⟨traits, methods, accessors, is, htable, hsearch⟩
    · cases h
    · exact Accessors.ne_invalidName_of_build htable cause rfl
    · cases h
    · have htexts := Order.resolve_ascii (Utf8.encode u.options.target) u.options.strict is
        fun name b => hletters htable
      rw [hsearch] at htexts
      obtain ⟨name, address, h⟩ := htexts
      cases h
  | ok r =>
    rw [resolveOrder, hresolve]
    have hfound := Resolution.resolve_eq_ok_iff.1 hresolve
    obtain rfl := hfound.keymap_eq hkeymap
    obtain ⟨inst, -, -, iinit, -, -, -, -, htable, -, hsearch⟩ := hfound
    have htexts := Order.resolve_ascii (Utf8.encode u.options.target) u.options.strict iinit
      fun name b => hletters htable
    rw [hsearch] at htexts
    intro name hname b hb
    obtain ⟨called, hcalled⟩ := htexts name hname b hb
    exact Accessors.mem_keymap_of_build htable hcalled

theorem resolveOrder_ascii_repeating :
    Extracts colliding.options repeating ⟨"ab"⟩ ∧ (∀ b ∈ Keymap.bytes ⟨"ab"⟩, b < 0x80) ∧
      colliding.resolveOrder.1 = .ok ["b", "a", "b"] ∧
      ∀ name ∈ ["b", "a", "b"], ∀ b ∈ Utf8.encode name, b ∈ Keymap.bytes ⟨"ab"⟩ := by
  have hstatic : (instructionsOf repeating 2 >>= (Keymap.extract · repeating.constants.strings)) =
      .ok ⟨"ab"⟩ := by decide +kernel
  obtain ⟨cinit, hcinit, hextract⟩ := bind_eq_ok_iff.1 hstatic
  have hkeymap : Extracts colliding.options repeating ⟨"ab"⟩ :=
    ⟨_, _, cinit, rfl, hcinit, hextract⟩
  have hascii : ∀ b ∈ Keymap.bytes ⟨"ab"⟩, b < 0x80 := by decide +kernel
  have horder : colliding.resolveOrder.1 = .ok ["b", "a", "b"] := by decide +kernel
  have hletters := resolveOrder_ascii (u := colliding) hkeymap hascii
  rw [horder] at hletters
  exact ⟨hkeymap, hascii, horder, hletters⟩

/-- A name that begins with half of a letter. -/
example :
    let program := { repeating with
      constants := { repeating.constants with strings := ["", "é"] } }
    Unpacker.resolveOrder { colliding with
        frame := { colliding.frame with program }, options := ⟨0, "", false⟩ }
      |>.1 = .error (.invalidName ⟨0, some 1⟩) := by
  decide +kernel

end Unpacker
end PackedMovie.Resource
