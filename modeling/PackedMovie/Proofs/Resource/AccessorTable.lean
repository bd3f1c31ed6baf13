import PackedMovie.Proofs.Code.Operands
import PackedMovie.Proofs.Dictionary
import PackedMovie.Resource.Accessors

/-!
# The table of accessors

Which byte a name stands for is said of the traits of the class: of the traits with that name, the
last one counts whose method is an accessor that pushes a byte. The table is refused for the first
trait whose accessor cannot be decoded or picks beyond the keymap, whatever the later traits are.

Main statement: `Accessors.build_decides`.
-/
namespace PackedMovie.Resource.Accessors

open PackedMovie.Abc (Body Method Trait)
open PackedMovie.Code (Instruction decode laidOut_of_decode)

/-- The trait declares a method of the table that takes a rest and has a body of two stack slots. -/
def Qualifies (methods : List Method) (t : Trait) (body : Body) : Prop :=
  ∃ dispId index m, t.kind = .method dispId index ∧ methods[index.toNat]? = some m ∧
    m.needRest = true ∧ m.body = some body ∧ body.maxStack = 2

/-- No byte is pushed before this instruction pushes one. -/
def PushesFirst (is : List Instruction) (push : Instruction) : Prop :=
  ∃ before after, is = before ++ push :: after ∧ push.opcode = .pushByte ∧
    ∀ i ∈ before, i.opcode ≠ .pushByte

/-- If the trait is an accessor's, then its code can be decoded, and what it pushes first is the place
of a byte in the keymap. -/
def Sound (methods : List Method) (keymap : Keymap) (t : Trait) : Prop :=
  ∀ body, Qualifies methods t body → ∃ is, decode body.code = .ok is ∧
    ∀ push, PushesFirst is push →
      ∃ index : UInt8, push.operands = [index.toUInt32] ∧ index.toNat < keymap.size

/-- What is wrong with the accessor of a trait. -/
inductive Offends (methods : List Method) (keymap : Keymap) (t : Trait) : Error → Prop
  | code {body : Body} {e : Abc.Error} : Qualifies methods t body → decode body.code = .error e →
      Offends methods keymap t (.abc e)
  | index {body : Body} {is : List Instruction} {push : Instruction} {index : UInt8} :
      Qualifies methods t body → decode body.code = .ok is → PushesFirst is push →
      push.operands = [index.toUInt32] → keymap.size ≤ index.toNat →
      Offends methods keymap t (.keymapIndex index keymap.size)

/-- The byte in the keymap at the place that the accessor of a trait pushes first. -/
def Picks (methods : List Method) (keymap : Keymap) (t : Trait) (byte : UInt8) : Prop :=
  ∃ body is push, ∃ index : UInt8, Qualifies methods t body ∧ decode body.code = .ok is ∧
    PushesFirst is push ∧ push.operands = [index.toUInt32] ∧
    keymap.bytes[index.toNat]? = some byte

/-! ### One trait -/

/-- What one trait adds to the table. -/
def pick? (methods : List Method) (keymap : Keymap) (t : Trait) : Except Error (Option UInt8) :=
  match candidate? methods t with
  | none => .ok none
  | some m => pickedByte? keymap m

theorem candidate?_eq_some_iff {methods : List Method} {t : Trait} {m : Method} :
    candidate? methods t = some m ↔
      ∃ index, t.method? = some index ∧ methods[index.toNat]? = some m ∧ isAccessor m = true := by
  simp only [candidate?, Option.bind_eq_bind, Option.bind_eq_some_iff,
    Option.ite_none_right_eq_some, Option.some.injEq]
  constructor
  · rintro ⟨index, hindex, _, hm, haccessor, rfl⟩
    exact ⟨index, hindex, hm, haccessor⟩
  · rintro ⟨index, hindex, hm, haccessor⟩
    exact ⟨index, hindex, m, hm, haccessor, rfl⟩

theorem method?_eq_some_iff {t : Trait} {index : UInt32} :
    t.method? = some index ↔ ∃ dispId, t.kind = .method dispId index := by
  obtain ⟨name, kind, attributes, metadata⟩ := t
  cases kind <;> simp [Trait.method?]

/-- An accessor has a body, since a method without one uses no stack. -/
theorem isAccessor_iff {m : Method} :
    isAccessor m = true ↔ m.needRest = true ∧ ∃ body, m.body = some body ∧ body.maxStack = 2 := by
  rw [isAccessor, Bool.and_eq_true, beq_iff_eq, Method.maxStack]
  cases m.body with
  | none => simp
  | some body => simp

theorem qualifies_iff {methods : List Method} {t : Trait} {body : Body} :
    Qualifies methods t body ↔ ∃ m, candidate? methods t = some m ∧ m.body = some body := by
  simp only [Qualifies, candidate?_eq_some_iff, method?_eq_some_iff, isAccessor_iff]
  constructor
  · rintro ⟨dispId, index, m, hkind, hm, hrest, hbody, hstack⟩
    exact ⟨m, ⟨index, ⟨dispId, hkind⟩, hm, hrest, body, hbody, hstack⟩, hbody⟩
  · rintro ⟨m, ⟨index, ⟨dispId, hkind⟩, hm, hrest, other, hother, hstack⟩, hbody⟩
    obtain rfl : other = body := Option.some.inj (hother.symm.trans hbody)
    exact ⟨dispId, index, m, hkind, hm, hrest, hbody, hstack⟩

theorem pushesFirst_iff {is : List Instruction} {push : Instruction} :
    PushesFirst is push ↔ Keymap.firstWith? .pushByte is = some push := by
  rw [Keymap.firstWith?, List.find?_eq_some_iff_append]
  constructor
  · rintro ⟨before, after, his, hpush, hbefore⟩
    exact ⟨by simpa using hpush, before, after, his, by simpa using hbefore⟩
  · rintro ⟨hpush, before, after, his, hbefore⟩
    exact ⟨before, after, his, by simpa using hpush, by simpa using hbefore⟩

/-- What decoded code pushes as a byte is one operand, and a byte. -/
theorem PushesFirst.operands {code : Bytes} {is : List Instruction} {push : Instruction}
    (h : PushesFirst is push) (hcode : decode code = .ok is) :
    ∃ index : UInt8, push.operands = [index.toUInt32] := by
  obtain ⟨before, after, rfl, hpush, -⟩ := h
  have hmem : push ∈ before ++ push :: after :=
    List.mem_append_right before List.mem_cons_self
  exact (laidOut_of_decode hcode push hmem).pushByte hpush

theorem byteAt_eq {keymap : Keymap} {index byte : UInt8}
    (h : keymap.bytes[index.toNat]? = some byte) : keymap.byteAt index = .ok byte := by
  rw [Keymap.byteAt, h]

theorem byteAt_beyond {keymap : Keymap} {index : UInt8} (h : keymap.size ≤ index.toNat) :
    keymap.byteAt index = .error (.keymapIndex index keymap.size) := by
  rw [Keymap.byteAt, List.getElem?_eq_none h]

section

variable {methods : List Method} {keymap : Keymap} {t : Trait} {body : Body}

theorem pick?_of_not_qualifies (h : ∀ body, ¬ Qualifies methods t body) :
    pick? methods keymap t = .ok none := by
  cases hm : candidate? methods t with
  | none => rw [pick?, hm]
  | some m =>
    obtain ⟨-, -, -, haccessor⟩ := candidate?_eq_some_iff.1 hm
    obtain ⟨-, body, hbody, -⟩ := isAccessor_iff.1 haccessor
    exact absurd (qualifies_iff.2 ⟨m, hm, hbody⟩) (h body)

theorem pick?_of_code (h : Qualifies methods t body) {e : Abc.Error}
    (hcode : decode body.code = .error e) : pick? methods keymap t = .error (.abc e) := by
  obtain ⟨m, hm, hbody⟩ := qualifies_iff.1 h
  rw [pick?, hm]
  simp only [pickedByte?, Method.instructions, hbody, Body.instructions, hcode]
  rfl

theorem pick?_of_decoded (h : Qualifies methods t body) {is : List Instruction}
    (hcode : decode body.code = .ok is) :
    pick? methods keymap t =
      match Keymap.firstWith? .pushByte is with
      | none => .ok none
      | some push => some <$> keymap.byteAt push.firstOperand.toUInt8 := by
  obtain ⟨m, hm, hbody⟩ := qualifies_iff.1 h
  rw [pick?, hm]
  simp only [pickedByte?, Method.instructions, hbody, Body.instructions, hcode]
  rfl

theorem pick?_of_push (h : Qualifies methods t body) {is : List Instruction} {push : Instruction}
    {index : UInt8} (hcode : decode body.code = .ok is) (hpush : PushesFirst is push)
    (hindex : push.operands = [index.toUInt32]) :
    pick? methods keymap t = some <$> keymap.byteAt index := by
  have hbyte : push.firstOperand.toUInt8 = index := by
    simp [Instruction.firstOperand, Instruction.operand?, hindex]
  rw [pick?_of_decoded h hcode, pushesFirst_iff.1 hpush, ← hbyte]

theorem Picks.pick? {byte : UInt8} (h : Picks methods keymap t byte) :
    pick? methods keymap t = .ok (some byte) := by
  obtain ⟨body, is, push, index, hbody, hcode, hpush, hindex, hbyte⟩ := h
  rw [pick?_of_push hbody hcode hpush hindex, byteAt_eq hbyte]
  rfl

theorem Offends.pick? {e : Error} (h : Offends methods keymap t e) :
    pick? methods keymap t = .error e := by
  cases h with
  | code hbody hcode => exact pick?_of_code hbody hcode
  | index hbody hcode hpush hindex hbeyond =>
    rw [pick?_of_push hbody hcode hpush hindex, byteAt_beyond hbeyond]
    rfl

theorem Qualifies.unique {other : Body} (h : Qualifies methods t body)
    (h' : Qualifies methods t other) : body = other := by
  obtain ⟨m, hm, hbody⟩ := qualifies_iff.1 h
  obtain ⟨m', hm', hother⟩ := qualifies_iff.1 h'
  obtain rfl : m = m' := Option.some.inj (hm.symm.trans hm')
  exact Option.some.inj (hbody.symm.trans hother)

/-- A trait adds nothing or the byte that it picks, if it is sound, and otherwise offends. -/
theorem pick?_cases (methods : List Method) (keymap : Keymap) (t : Trait) :
    (Sound methods keymap t ∧ (pick? methods keymap t = .ok none ∨
      ∃ byte, pick? methods keymap t = .ok (some byte) ∧ Picks methods keymap t byte)) ∨
      ∃ e, pick? methods keymap t = .error e ∧ Offends methods keymap t e := by
  by_cases hqualifies : ∃ body, Qualifies methods t body
  · obtain ⟨body, hbody⟩ := hqualifies
    cases hcode : decode body.code with
    | error e => exact .inr ⟨_, pick?_of_code hbody hcode, .code hbody hcode⟩
    | ok is =>
      cases hfirst : Keymap.firstWith? .pushByte is with
      | none =>
        refine .inl ⟨fun other hother => ?_, .inl (by rw [pick?_of_decoded hbody hcode, hfirst])⟩
        obtain rfl := hbody.unique hother
        refine ⟨is, hcode, fun push hpush => ?_⟩
        rw [pushesFirst_iff, hfirst] at hpush
        cases hpush
      | some push =>
        -- That the operand is a byte is what lets it be compared with the size of the keymap.
        have hpush := pushesFirst_iff.2 hfirst
        obtain ⟨index, hindex⟩ := hpush.operands hcode
        by_cases hbelow : index.toNat < keymap.size
        · have hpicks : Picks methods keymap t keymap.bytes[index.toNat] :=
            ⟨body, is, push, index, hbody, hcode, hpush, hindex, List.getElem?_eq_getElem hbelow⟩
          refine .inl ⟨fun other hother => ?_, .inr ⟨_, hpicks.pick?, hpicks⟩⟩
          obtain rfl := hbody.unique hother
          refine ⟨is, hcode, fun push' hpush' => ?_⟩
          obtain rfl : push = push' :=
            Option.some.inj (hfirst.symm.trans (pushesFirst_iff.1 hpush'))
          exact ⟨index, hindex, hbelow⟩
        · have hoffends : Offends methods keymap t (.keymapIndex index keymap.size) :=
            .index hbody hcode hpush hindex (Nat.not_lt.1 hbelow)
          exact .inr ⟨_, hoffends.pick?, hoffends⟩
  · exact .inl ⟨fun body hbody => absurd ⟨body, hbody⟩ hqualifies,
      .inl (pick?_of_not_qualifies fun body hbody => hqualifies ⟨body, hbody⟩)⟩

theorem Offends.not_sound {e : Error} (h : Offends methods keymap t e) : ¬ Sound methods keymap t := by
  intro hsound
  cases h with
  | code hbody hcode =>
    obtain ⟨is, his, -⟩ := hsound _ hbody
    rw [hcode] at his
    cases his
  | @index body is push index hbody hcode hpush hindex hbeyond =>
    obtain ⟨is', his, hplaces⟩ := hsound _ hbody
    obtain rfl : is = is' := Except.ok.inj (hcode.symm.trans his)
    obtain ⟨index', hindex', hbelow⟩ := hplaces push hpush
    rw [hindex, List.cons.injEq, UInt8.toUInt32_inj] at hindex'
    rw [hindex'.1] at hbeyond
    exact absurd hbelow (Nat.not_lt.2 hbeyond)

theorem picks_iff {byte : UInt8} :
    Picks methods keymap t byte ↔ pick? methods keymap t = .ok (some byte) := by
  refine ⟨Picks.pick?, fun h => ?_⟩
  rcases pick?_cases methods keymap t with ⟨-, hnone | ⟨other, hother, hpicks⟩⟩ | ⟨e, he, -⟩
  · rw [hnone] at h
    cases h
  · rw [hother] at h
    cases h
    exact hpicks
  · rw [he] at h
    cases h

theorem offends_iff {e : Error} :
    Offends methods keymap t e ↔ pick? methods keymap t = .error e := by
  refine ⟨Offends.pick?, fun h => ?_⟩
  rcases pick?_cases methods keymap t with ⟨-, hnone | ⟨other, hother, -⟩⟩ | ⟨e', he', hoffends⟩
  · rw [hnone] at h
    cases h
  · rw [hother] at h
    cases h
  · rw [he'] at h
    cases h
    exact hoffends

theorem sound_iff : Sound methods keymap t ↔ ∃ picked, pick? methods keymap t = .ok picked := by
  rcases pick?_cases methods keymap t with ⟨hsound, hpicked⟩ | ⟨e, he, hoffends⟩
  · refine iff_of_true hsound ?_
    rcases hpicked with hnone | ⟨byte, hbyte, -⟩
    · exact ⟨_, hnone⟩
    · exact ⟨_, hbyte⟩
  · refine iff_of_false hoffends.not_sound ?_
    rintro ⟨picked, hpicked⟩
    rw [he] at hpicked
    cases hpicked

end

/-! ### All traits -/

section

variable {methods : List Method} {keymap : Keymap}

theorem collect_cons (found : Accessors) (t : Trait) (rest : List Trait) :
    collect methods keymap found (t :: rest) =
      match pick? methods keymap t with
      | .error e => .error e
      | .ok none => collect methods keymap found rest
      | .ok (some byte) => collect methods keymap (found.insert t.name byte) rest := by
  rw [collect, pick?]
  cases candidate? methods t <;> rfl

theorem exists_collect_iff {found : Accessors} {traits : List Trait} :
    (∃ all, collect methods keymap found traits = .ok all) ↔
      ∀ t ∈ traits, Sound methods keymap t := by
  induction traits generalizing found with
  | nil => simp [collect]
  | cons t rest ih =>
    rw [List.forall_mem_cons, sound_iff, collect_cons]
    cases hpick : pick? methods keymap t with
    | error e => simp
    | ok picked => cases picked <;> simp [ih]

/-- The first element that has `Q`, if all before it have `P`. -/
theorem exists_first_cons_iff {α : Type} {P Q : α → Prop} {a : α} {as : List α} :
    (∃ before b after, a :: as = before ++ b :: after ∧ (∀ c ∈ before, P c) ∧ Q b) ↔
      Q a ∨ P a ∧ ∃ before b after, as = before ++ b :: after ∧ (∀ c ∈ before, P c) ∧ Q b := by
  constructor
  · rintro ⟨before, b, after, hsplit, hbefore, hb⟩
    cases before with
    | nil =>
      cases hsplit
      exact .inl hb
    | cons c before =>
      cases hsplit
      rw [List.forall_mem_cons] at hbefore
      exact .inr ⟨hbefore.1, before, b, after, rfl, hbefore.2, hb⟩
  · rintro (ha | ⟨ha, before, b, after, rfl, hbefore, hb⟩)
    · exact ⟨[], a, as, rfl, by simp, ha⟩
    · exact ⟨a :: before, b, after, rfl, List.forall_mem_cons.2 ⟨ha, hbefore⟩, hb⟩

theorem collect_eq_error_iff {found : Accessors} {traits : List Trait} {e : Error} :
    collect methods keymap found traits = .error e ↔
      ∃ before t after, traits = before ++ t :: after ∧
        (∀ t' ∈ before, Sound methods keymap t') ∧ Offends methods keymap t e := by
  induction traits generalizing found with
  | nil => simp [collect]
  | cons t rest ih =>
    rw [exists_first_cons_iff, sound_iff, offends_iff, collect_cons]
    cases hpick : pick? methods keymap t with
    | error e' => simp
    | ok picked => cases picked <;> simp [ih]

/-- What a trait says of a name. -/
def byteFor? (methods : List Method) (keymap : Keymap) (name : UInt32) (t : Trait) : Option UInt8 :=
  match pick? methods keymap t with
  | .ok (some byte) => if name = t.name then some byte else none
  | _ => none

theorem byteFor?_eq_some_iff {name : UInt32} {t : Trait} {byte : UInt8} :
    byteFor? methods keymap name t = some byte ↔ t.name = name ∧ Picks methods keymap t byte := by
  rw [picks_iff, byteFor?]
  split
  · rename_i other hother
    simp [hother, eq_comm]
  · rename_i hnot
    simp only [reduceCtorEq, false_iff, not_and]
    exact fun _ => hnot byte

theorem byteFor?_eq_none_iff {name : UInt32} {t : Trait} :
    byteFor? methods keymap name t = none ↔
      (t.name = name → ∀ byte, ¬ Picks methods keymap t byte) := by
  rw [Option.eq_none_iff_forall_ne_some]
  simp only [ne_eq, byteFor?_eq_some_iff, not_and]
  exact forall_comm

theorem get?_collect {found all : Accessors} {traits : List Trait}
    (h : collect methods keymap found traits = .ok all) (name : UInt32) :
    all.get? name =
      (traits.reverse.findSome? (byteFor? methods keymap name)).or (found.get? name) := by
  induction traits generalizing found with
  | nil =>
    cases h
    rfl
  | cons t rest ih =>
    rw [collect_cons] at h
    rw [List.reverse_cons, List.findSome?_append, Option.or_assoc]
    split at h
    · cases h
    · rename_i hnone
      rw [ih h]
      simp [byteFor?, hnone]
    · rename_i byte hbyte
      rw [ih h, Dictionary.get?_insert]
      simp only [byteFor?, hbyte, List.findSome?_singleton]
      split <;> rfl

end

/-- Without a keymap the table is empty, whatever the methods are. Otherwise there is a table just if
all traits are sound. It gives to a name what the last trait with this name picks that picks
anything. If there is no table, the error is that of the first trait that is not sound. -/
theorem build_decides (traits : List Trait) (methods : List Method) (keymap : Keymap) :
    if keymap.text = "" then build traits methods keymap = .ok .empty
    else
      ((∃ table, build traits methods keymap = .ok table) ↔
        ∀ t ∈ traits, Sound methods keymap t) ∧
      (∀ table, build traits methods keymap = .ok table → ∀ name byte,
        table.get? name = some byte ↔
          ∃ before t after, traits = before ++ t :: after ∧
            (t.name = name ∧ Picks methods keymap t byte) ∧
            ∀ t' ∈ after, t'.name = name → ∀ other, ¬ Picks methods keymap t' other) ∧
      ∀ e, build traits methods keymap = .error e ↔
        ∃ before t after, traits = before ++ t :: after ∧
          (∀ t' ∈ before, Sound methods keymap t') ∧ Offends methods keymap t e := by
  have hempty : keymap.isEmpty = true ↔ keymap.text = "" := by
    rw [Keymap.isEmpty, String.isEmpty_iff]
  unfold build
  split
  · rename_i htext
    rw [if_pos (hempty.2 htext)]
  · rename_i htext
    rw [if_neg (fun h => htext (hempty.1 h))]
    refine ⟨exists_collect_iff, fun table htable name byte => ?_, fun e => collect_eq_error_iff⟩
    rw [get?_collect htable, Dictionary.get?_empty, Option.or_none,
      History.findSome?_reverse_eq_some_iff]
    simp only [byteFor?_eq_some_iff, byteFor?_eq_none_iff]

end PackedMovie.Resource.Accessors
