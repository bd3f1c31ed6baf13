import Mathlib.Algebra.BigOperators.Fin
import Mathlib.Tactic.Ring
import PackedMovie.Proofs.Abc.Accounting

/-!
# Which bytes are an integer

An integer is one to five bytes of which the last, and no other, is without the high bit. The low
seven bits of each are a group of the number, the lowest group first. Unsigned it is the number
modulo 2³². Signed, the last bit of fewer than five groups is the sign, and five groups fill the
word. Bytes that do not begin with an integer either have the high bit five times, or end before they
do. The written form of a number is one such integer, and none that is read as the number is shorter.

Main statement: `integers_decide`.
-/
namespace PackedMovie.Abc

open PackedMovie.Reader (Reads Takes)

/-! ### Groups -/

/-- The groups that the bytes hold, each times the power of 128 that its place stands for. -/
def groupSum (groups : Bytes) : Nat :=
  ∑ i : Fin groups.length, groups[i].toNat % 128 * 128 ^ (i : Nat)

theorem value_eq_groupSum (groups : Bytes) : Base128.value groups = groupSum groups := by
  induction groups with
  | nil => rfl
  | cons b rest ih =>
    have hrest : 128 * groupSum rest =
        ∑ i : Fin rest.length, rest[i].toNat % 128 * 128 ^ ((i : Nat) + 1) := by
      rw [groupSum, Finset.mul_sum]
      apply Finset.sum_congr rfl
      intro i _
      ring
    rw [Base128.value_cons, ih, hrest, groupSum]
    simp [Fin.sum_univ_succ]

/-- The number of the groups, as far as a word holds it. -/
def unsignedWord (groups : Bytes) : UInt32 := UInt32.ofNat (groupSum groups)

/-- Fewer than five groups are extended by the highest of their bits; of five, the word has the
sign. -/
def signedWord (groups : Bytes) : Int32 :=
  if groups.length < 5 then
    .ofBitVec (((unsignedWord groups).toBitVec.setWidth (7 * groups.length)).signExtend 32)
  else (unsignedWord groups).toInt32

theorem signExtend_groups {groups : Bytes} (h : groups.length < 5) :
    Int32.ofBitVec (((unsignedWord groups).toBitVec.setWidth (7 * groups.length)).signExtend 32) =
      Int32.ofInt (Base128.signedValue groups) := by
  have hpow : 2 ^ (7 * groups.length) = Nat.pow 128 groups.length := Nat.pow_mul 2 7 groups.length
  have hbits : (unsignedWord groups).toBitVec.setWidth (7 * groups.length) =
      BitVec.ofNat (7 * groups.length) (groupSum groups) :=
    BitVec.setWidth_ofNat_of_le (by omega) _
  have hsign : (BitVec.ofNat (7 * groups.length) (groupSum groups)).toInt =
      Base128.signedValue groups := by
    rw [BitVec.toInt_ofNat', hpow, Base128.signedValue, value_eq_groupSum]
  rw [hbits, BitVec.signExtend, hsign]
  rfl

theorem signedWord_eq (groups : Bytes) :
    Int32.ofInt (if groups.length < maxGroups then Base128.signedValue groups
      else Base128.value groups) = signedWord groups := by
  unfold signedWord maxGroups
  split
  · rename_i hshort
    rw [signExtend_groups hshort]
  · rw [value_eq_groupSum]
    rfl

/-! ### Where an integer ends -/

/-- The high bit says that another group follows. -/
def Continues (b : UInt8) : Prop := 128 ≤ b.toNat

/-- At most five bytes, of which all but the last continue. -/
structure IsInteger (front : Bytes) (last : UInt8) : Prop where
  short : front.length < 5
  continues : ∀ b ∈ front, Continues b
  ends : ¬ Continues last

/-- What is said to bytes that do not begin with an integer, and where they are left. -/
inductive Refused (c : Cursor) : Error → Cursor → Prop
  | overlong {run rest : Bytes} : c.rest = run ++ rest → run.length = 5 → (∀ b ∈ run, Continues b) →
      Refused c (.invalidInteger c.offset) ⟨c.offset + 5, rest⟩
  | cut : c.rest.length < 5 → (∀ b ∈ c.rest, Continues b) →
      Refused c .unexpectedEnd ⟨c.offset + c.rest.length, []⟩

theorem isLast_iff {b : UInt8} : Base128.isLast b = true ↔ ¬ Continues b := by
  simp [Base128.isLast, Continues, UInt8.lt_iff_toNat_lt]

theorem isRun_iff {run : Bytes} : Base128.IsRun run ↔
    ∃ front last, run = front ++ [last] ∧ (∀ b ∈ front, Continues b) ∧ ¬ Continues last := by
  constructor
  · intro h
    induction h with
    | @last b hlast => exact ⟨[], b, rfl, by simp, isLast_iff.1 hlast⟩
    | @more b rest hmore _ ih =>
      obtain ⟨front, last, rfl, hfront, hlast⟩ := ih
      have hb : Continues b := by
        by_contra hends
        simp [isLast_iff.2 hends] at hmore
      exact ⟨b :: front, last, rfl, List.forall_mem_cons.2 ⟨hb, hfront⟩, hlast⟩
  · rintro ⟨front, last, rfl, hfront, hlast⟩
    induction front with
    | nil => exact .last (isLast_iff.2 hlast)
    | cons b front ih =>
      rw [List.forall_mem_cons] at hfront
      have hmore : Base128.isLast b = false := by
        rw [Bool.eq_false_iff]
        intro hends
        exact isLast_iff.1 hends hfront.1
      exact .more hmore (ih hfront.2)

theorem isInteger_iff {run : Bytes} : Base128.IsRun run ∧ run.length ≤ maxGroups ↔
    ∃ front last, run = front ++ [last] ∧ IsInteger front last := by
  rw [isRun_iff]
  constructor
  · rintro ⟨⟨front, last, rfl, hfront, hlast⟩, hlength⟩
    rw [List.length_append] at hlength
    exact ⟨front, last, rfl, Nat.lt_of_succ_le hlength, hfront, hlast⟩
  · rintro ⟨front, last, rfl, hshort, hfront, hlast⟩
    refine ⟨⟨front, last, rfl, hfront, hlast⟩, ?_⟩
    rw [List.length_append]
    exact Nat.succ_le_of_lt hshort

theorem groups_continues (start count offset : Nat) {b : UInt8} (h : Continues b) (rest : Bytes) :
    Reader.groups start (count + 1) ⟨offset, b :: rest⟩ =
      (Reader.groups start count >>= fun run => pure (b :: run)) ⟨offset + 1, rest⟩ := by
  rw [groups_cons, if_neg]
  intro hlast
  exact isLast_iff.1 hlast h

theorem groups_overlong (start offset : Nat) {run : Bytes} (h : ∀ b ∈ run, Continues b)
    (rest : Bytes) : Reader.groups start run.length ⟨offset, run ++ rest⟩ =
      .error (.invalidInteger start) ⟨offset + run.length, rest⟩ := by
  induction run generalizing offset with
  | nil => rfl
  | cons b run ih =>
    rw [List.forall_mem_cons] at h
    have hnext := ih (offset + 1) h.2
    rw [List.length_cons, List.cons_append, groups_continues start run.length offset h.1,
      Reader.error_bind hnext, Nat.add_assoc, Nat.add_comm 1]

theorem groups_cut (start offset : Nat) {count : Nat} {run : Bytes} (h : ∀ b ∈ run, Continues b)
    (hcount : run.length < count) : Reader.groups start count ⟨offset, run⟩ =
      .error .unexpectedEnd ⟨offset + run.length, []⟩ := by
  induction run generalizing offset count with
  | nil =>
    obtain ⟨count, rfl⟩ := Nat.exists_eq_add_one.2 hcount
    rfl
  | cons b run ih =>
    rw [List.forall_mem_cons] at h
    obtain ⟨count, rfl⟩ := Nat.exists_eq_add_one.2 (Nat.zero_lt_of_lt hcount)
    have hnext := ih (offset + 1) h.2 (Nat.lt_of_succ_lt_succ hcount)
    rw [groups_continues start count offset h.1, Reader.error_bind hnext, List.length_cons,
      Nat.add_assoc, Nat.add_comm 1]

/-- The first bytes either are an integer, or continue as often as there may be groups, or are all
the bytes there are. -/
theorem exists_front (count : Nat) (bytes : Bytes) :
    (∃ front last rest, bytes = front ++ last :: rest ∧ front.length < count ∧
      (∀ b ∈ front, Continues b) ∧ ¬ Continues last) ∨
    (∃ run rest, bytes = run ++ rest ∧ run.length = count ∧ ∀ b ∈ run, Continues b) ∨
    (bytes.length < count ∧ ∀ b ∈ bytes, Continues b) := by
  induction count generalizing bytes with
  | zero => exact .inr (.inl ⟨[], bytes, rfl, rfl, by simp⟩)
  | succ count ih =>
    cases bytes with
    | nil => exact .inr (.inr ⟨Nat.succ_pos count, by simp⟩)
    | cons b bytes =>
      by_cases hb : Continues b
      · rcases ih bytes with ⟨front, last, rest, rfl, hshort, hfront, hlast⟩ |
          ⟨run, rest, rfl, hrun, hall⟩ | ⟨hshort, hall⟩
        · exact .inl ⟨b :: front, last, rest, rfl, Nat.succ_lt_succ hshort,
            List.forall_mem_cons.2 ⟨hb, hfront⟩, hlast⟩
        · exact .inr (.inl ⟨b :: run, rest, rfl, congrArg (· + 1) hrun,
            List.forall_mem_cons.2 ⟨hb, hall⟩⟩)
        · exact .inr (.inr ⟨Nat.succ_lt_succ hshort, List.forall_mem_cons.2 ⟨hb, hall⟩⟩)
      · exact .inl ⟨[], b, bytes, rfl, Nat.succ_pos count, by simp, hb⟩

theorem integer_refused {c d : Cursor} {e : Error} (h : Refused c e d) :
    Reader.integer c = .error e d := by
  obtain ⟨offset, bytes⟩ := c
  cases h with
  | @overlong run rest hbytes hlength hall =>
    cases hbytes
    have hread := groups_overlong offset offset hall rest
    rw [hlength] at hread
    exact hread
  | cut hshort hall => exact groups_cut offset offset hall hshort

/-! ### Reading -/

/-- `r` takes an integer off the front wherever there is one, as the value of its bytes, and refuses
all else. -/
structure ReadsIntegers {α : Type} (r : Reader α) (value : Bytes → α) : Prop where
  accepts : ∀ c d a, r c = .ok a d ↔ ∃ front last, IsInteger front last ∧
    c.rest = front ++ last :: d.rest ∧ d.offset = c.offset + (front.length + 1) ∧
    a = value (front ++ [last])
  refuses : ∀ c d e, r c = .error e d ↔ Refused c e d

theorem integer_eq_ok_iff (c d : Cursor) (run : Bytes) : Reader.integer c = .ok run d ↔
    ∃ front last, IsInteger front last ∧ c.rest = front ++ last :: d.rest ∧
      d.offset = c.offset + (front.length + 1) ∧ run = front ++ [last] := by
  constructor
  · intro h
    obtain ⟨used, hrest, hplace, hrun, hgroups, hused⟩ := takes_integer c d run h
    obtain ⟨front, last, rfl, hinteger⟩ := isInteger_iff.1 ⟨hrun, hgroups⟩
    have hfirst := (groups_eq_ok (show Reader.groups c.offset maxGroups c = _ from h)).2.2
    rw [List.append_assoc] at hfirst
    rw [← hused, List.length_append] at hplace
    exact ⟨front, last, hinteger, hfirst, hplace, rfl⟩
  · rintro ⟨front, last, hinteger, hrest, hplace, rfl⟩
    obtain ⟨hrun, hgroups⟩ := isInteger_iff.2 ⟨front, last, rfl, hinteger⟩
    have hread := reads_integer hrun hgroups c.offset d.rest
    rw [List.append_assoc, List.length_append] at hread
    obtain ⟨offset, bytes⟩ := c
    obtain ⟨offset', rest⟩ := d
    simp only at hrest hplace
    rw [hrest, hplace]
    exact hread

theorem readsIntegers_integer : ReadsIntegers Reader.integer id where
  accepts := integer_eq_ok_iff
  refuses c d e := by
    constructor
    · intro h
      -- Whatever the first bytes are, only the refusal of these bytes can have been the outcome.
      have hsame {e' : Error} {d' : Cursor} (hrefused : Refused c e' d') : Refused c e d := by
        have heq := (integer_refused hrefused).symm.trans h
        cases heq
        exact hrefused
      rcases exists_front 5 c.rest with ⟨front, last, rest, hbytes, hshort, hfront, hlast⟩ |
        ⟨run, rest, hbytes, hlength, hall⟩ | ⟨hshort, hall⟩
      · have hread := (integer_eq_ok_iff c ⟨c.offset + (front.length + 1), rest⟩ _).2
          ⟨front, last, ⟨hshort, hfront, hlast⟩, hbytes, rfl, rfl⟩
        rw [h] at hread
        cases hread
      · exact hsame (.overlong hbytes hlength hall)
      · exact hsame (.cut hshort hall)
    · exact integer_refused

theorem map_eq_error_iff {ε α β : Type} {r : PackedMovie.Reader ε α} {f : α → β} {c d : Cursor}
    {e : ε} : (f <$> r) c = .error e d ↔ r c = .error e d := by
  simp only [Functor.map, EStateM.map]
  cases r c <;> simp

theorem ReadsIntegers.map {α β : Type} {r : Reader α} {value : Bytes → α} (f : α → β)
    (h : ReadsIntegers r value) : ReadsIntegers (f <$> r) fun groups => f (value groups) where
  accepts c d b := by
    rw [PackedMovie.Reader.map_eq_ok_iff]
    constructor
    · rintro ⟨a, ha, rfl⟩
      obtain ⟨front, last, hinteger, hrest, hplace, rfl⟩ := (h.accepts c d a).1 ha
      exact ⟨front, last, hinteger, hrest, hplace, rfl⟩
    · rintro ⟨front, last, hinteger, hrest, hplace, rfl⟩
      exact ⟨_, (h.accepts c d _).2 ⟨front, last, hinteger, hrest, hplace, rfl⟩, rfl⟩
  refuses c d e := by rw [map_eq_error_iff, h.refuses]

theorem readsIntegers_u30 : ReadsIntegers Reader.u30 unsignedWord := by
  have h : ReadsIntegers Reader.u30 fun groups => UInt32.ofNat (Base128.value groups) :=
    readsIntegers_integer.map _
  simp only [value_eq_groupSum] at h
  exact h

theorem readsIntegers_s32 : ReadsIntegers Reader.s32 signedWord := by
  have h : ReadsIntegers Reader.s32 fun groups => Int32.ofInt
      (if groups.length < maxGroups then Base128.signedValue groups else Base128.value groups) :=
    readsIntegers_integer.map _
  simp only [signedWord_eq] at h
  exact h

/-! ### Writing -/

/-- What is written is one integer, which is read back wherever it stands, and nothing shorter is
read as the same number. -/
structure WritesIntegers {α : Type} (r : Reader α) (write : α → Bytes) : Prop where
  isInteger : ∀ a, ∃ front last, write a = front ++ [last] ∧ IsInteger front last
  reads : ∀ a, Reads r (write a) a
  shortest : ∀ c d a, r c = .ok a d → c.offset + (write a).length ≤ d.offset

theorem add_length_le_of_takes {α : Type} {r : Reader α} {write : α → Bytes}
    (h : Takes r fun a k => (write a).length ≤ k ∧ 1 ≤ k) (c d : Cursor) (a : α)
    (hread : r c = .ok a d) : c.offset + (write a).length ≤ d.offset := by
  obtain ⟨used, -, hplace, hlength, -⟩ := h c d a hread
  omega

theorem writesIntegers_u30 : WritesIntegers Reader.u30 Write.u30 where
  isInteger n := isInteger_iff.1 ⟨Base128.isRun_encode n.toNat, length_write_u30_le n⟩
  reads := reads_u30
  shortest := add_length_le_of_takes takes_u30

theorem writesIntegers_s32 : WritesIntegers Reader.s32 Write.s32 where
  isInteger n := isInteger_iff.1 ⟨Base128.isRun_encodeSigned n.toInt, length_write_s32_le n⟩
  reads := reads_s32
  shortest := add_length_le_of_takes takes_s32

/-- Writing in at most `count` rounds. Each takes one group away, and the last is that after which only
copies of the group's highest bit are left. -/
def signedRounds : Nat → Int → Bytes
  | 0, _ => []
  | count + 1, n =>
    if n / 128 = 0 ∧ n % 128 < 64 ∨ n / 128 = -1 ∧ 64 ≤ n % 128 then [UInt8.ofNat (n % 128).toNat]
    else UInt8.ofNat ((n % 128).toNat + 128) :: signedRounds count (n / 128)

theorem signedRounds_eq {count : Nat} {n : Int} (h : (Base128.encodeSigned n).length ≤ count) :
    signedRounds count n = Base128.encodeSigned n := by
  induction count generalizing n with
  | zero =>
    have hpos := Base128.length_encodeSigned_pos n
    omega
  | succ count ih =>
    have hdone : (n / 128 = 0 ∧ n % 128 < 64 ∨ n / 128 = -1 ∧ 64 ≤ n % 128) ↔ -64 ≤ n ∧ n < 64 := by
      omega
    rw [Base128.encodeSigned] at h ⊢
    simp only [signedRounds, hdone]
    split
    · rfl
    · rename_i hmore
      rw [if_neg hmore, List.length_cons] at h
      rw [ih (Nat.le_of_succ_le_succ h)]

/-- Both kinds of integers are read from the same bytes, the unsigned as the sum of their groups and
the signed by their sign, and both are written as the shortest bytes that are read as the number. To
write a signed one, five rounds are enough. -/
theorem integers_decide :
    (ReadsIntegers Reader.u30 unsignedWord ∧ WritesIntegers Reader.u30 Write.u30) ∧
      (ReadsIntegers Reader.s32 signedWord ∧ WritesIntegers Reader.s32 Write.s32) ∧
      ∀ n, signedRounds 5 (Int32.toInt n) = Write.s32 n :=
  ⟨⟨readsIntegers_u30, writesIntegers_u30⟩, ⟨readsIntegers_s32, writesIntegers_s32⟩,
    fun n => signedRounds_eq (length_write_s32_le n)⟩

/-- Only the groups of the word count, and of fewer than five groups the sign. -/
example : unsignedWord [0xFF, 0xFF, 0xFF, 0xFF, 0x7F] = 0xFFFFFFFF ∧ signedWord [0xC0, 0x7F] = -64 := by
  decide +kernel

end PackedMovie.Abc
