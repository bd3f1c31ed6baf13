import PackedMovie.Proofs.Abc.FieldStreams
import PackedMovie.Proofs.Abc.Integers
import PackedMovie.Proofs.Abc.Truncation

/-!
# Reading on after failures

Reads go on from where the last one stopped, also if it failed. Whatever is asked for in whatever
order, the reader only moves forward and stays within the bytes. A value is made of just the bytes
between the places before and after its read. A read of a fixed width that fails has not moved. An
integer that fails has taken the bytes that were no integer, and a string without enough bytes has
taken its length.

Main statement: `attempts_sound`.
-/
namespace PackedMovie

/-- What is unread is what the bytes have from the cursor's offset on. -/
structure Cursor.StandsIn (slice : Bytes) (c : Cursor) : Prop where
  offset_le : c.offset ≤ slice.length
  rest_eq : c.rest = slice.drop c.offset

namespace Cursor.StandsIn

variable {slice : Bytes} {c d : Cursor}

theorem ofBytes (slice : Bytes) : (Cursor.ofBytes slice).StandsIn slice := ⟨Nat.zero_le _, rfl⟩

theorem length_rest (h : c.StandsIn slice) : c.offset + c.rest.length = slice.length := by
  have hle := h.offset_le
  rw [h.rest_eq, List.length_drop]
  omega

theorem of_reaches (h : c.StandsIn slice) : c.Reaches d → d.StandsIn slice := by
  rintro ⟨used, hused, hplace⟩
  have hlength := h.length_rest
  rw [hused, List.length_append] at hlength
  refine ⟨by omega, ?_⟩
  rw [hplace, ← List.drop_drop, ← h.rest_eq, hused, List.drop_left]

/-- What was taken is the piece of the bytes between the two places. -/
theorem extract_eq (h : c.StandsIn slice) {used : Bytes} (hused : c.rest = used ++ d.rest)
    (hplace : d.offset = c.offset + used.length) : slice.extract c.offset d.offset = used := by
  rw [List.extract_eq_take_drop, ← h.rest_eq, hused, hplace, Nat.add_sub_cancel_left,
    List.take_left]

end Cursor.StandsIn

namespace Abc

open PackedMovie.Reader (Forward Reads RunsOut Stable bytes_of_le bytes_short cursorAfter)

/-! ### What a read does -/

/-- The number of bytes of a field that is taken as a whole or not at all. -/
def FieldKind.width? : FieldKind → Option Nat
  | .u8 => some 1
  | .u16 => some 2
  | .s24 => some 3
  | .d64 => some 8
  | .bytes count => some count
  | .u30 | .s32 | .string => none

/-- Where the reader of an integer stops when it fails: at the end of all bytes, or behind the five
that did not end the integer. -/
inductive StopsInteger (slice : Bytes) (before : Cursor) : Error → Cursor → Prop
  | cut {after : Cursor} : after.offset = slice.length → StopsInteger slice before .unexpectedEnd after
  | overlong {after : Cursor} : after.offset = before.offset + 5 →
      StopsInteger slice before (.invalidInteger before.offset) after

/-- What is known of a read in a slice of bytes. -/
structure Attempt.Sound (slice : Bytes) (a : Attempt) : Prop where
  onward : a.before.offset ≤ a.after.offset
  inside : a.after.offset ≤ slice.length
  /-- The bytes between make the value wherever they stand, and with any of them missing at the end
  there is none. -/
  value : ∀ f, a.outcome = .ok f →
    Reads a.kind.read (slice.extract a.before.offset a.after.offset) f ∧
      ∀ front, front <+: slice.extract a.before.offset a.after.offset →
        front ≠ slice.extract a.before.offset a.after.offset →
        ∀ offset, RunsOut a.kind.read ⟨offset, front⟩
  fixed : ∀ width, a.kind.width? = some width →
    if a.before.offset + width ≤ slice.length then
      (∃ f, a.outcome = .ok f) ∧ a.after.offset = a.before.offset + width
    else a.outcome = .error .unexpectedEnd ∧ a.after = a.before
  integer : a.kind = .u30 ∨ a.kind = .s32 → ∀ e, a.outcome = .error e →
    StopsInteger slice a.before e a.after
  string : a.kind = .string →
    match Reader.u30 a.before with
    | .error e after => a.outcome = .error e ∧ a.after = after ∧ StopsInteger slice a.before e after
    | .ok length after =>
      if after.offset + length.toNat ≤ slice.length then
        (∃ f, a.outcome = .ok f) ∧ a.after.offset = after.offset + length.toNat
      else a.outcome = .error .unexpectedEnd ∧ a.after = after

/-! ### Kinds of fields -/

namespace FieldKind

theorem relocates : ∀ k : FieldKind, Relocates k.read
  | .u8 => relocates_u8.map _
  | .u16 => (((relocates_bytes 2).map _).map _).map _
  | .u30 => relocates_u30.map _
  | .s24 => relocates_s24.map _
  | .s32 => (relocates_integer.map _).map _
  | .d64 => (((relocates_bytes 8).map _).map _).map _
  | .bytes count => (relocates_bytes count).map _
  | .string =>
    (relocates_u30.bind fun _ => (relocates_bytes _).bind fun _ => Relocates.pure _).map _

theorem stable : ∀ k : FieldKind, Stable IsFault k.read
  | .u8 => Stable.u8.map _
  | .u16 => Stable.u16.map _
  | .u30 => stable_u30.map _
  | .s24 => ((Stable.word 3).map _).map _
  | .s32 => stable_s32.map _
  | .d64 => Stable.u64.map _
  | .bytes count => (Stable.bytes count).map _
  | .string => stable_string.map _

theorem forward_read : ∀ k : FieldKind, Forward k.read
  | .u8 => Forward.u8.map _
  | .u16 => ((Forward.word 2).map _).map _
  | .u30 => Reader.forward_u30.map _
  | .s24 => Forward.s24.map _
  | .s32 => ((Forward.get.bind fun _ => Reader.forward_groups _ _).map _).map _
  | .d64 => ((Forward.word 8).map _).map _
  | .bytes count => (Forward.bytes count).map _
  | .string =>
    (Reader.forward_u30.bind fun _ => (Forward.bytes _).bind fun _ => Forward.pure _).map _

/-- A field of a fixed width is made of that many bytes. -/
theorem read_of_width {k : FieldKind} {width : Nat} (h : k.width? = some width) :
    ∃ make : Bytes → Field, k.read = make <$> PackedMovie.Reader.bytes width := by
  cases k <;> cases h
  case u8 => exact ⟨_, by simp only [read, Reader.u8, Reader.word, Functor.map_map]; rfl⟩
  case u16 => exact ⟨_, by simp only [read, Reader.u16, Reader.word, Functor.map_map]; rfl⟩
  case s24 => exact ⟨_, by simp only [read, Reader.s24, Reader.word, Functor.map_map]; rfl⟩
  case d64 => exact ⟨_, by simp only [read, Reader.u64, Reader.word, Functor.map_map]; rfl⟩
  case bytes => exact ⟨_, rfl⟩

end FieldKind

/-! ### One attempt -/

section

variable {k : FieldKind} {c d : Cursor}

theorem attempt_of_error {e : Error} (h : k.read c = .error e d) :
    k.attempt c = ⟨k, c, .error e, d⟩ := by
  simp only [FieldKind.attempt, h]

@[simp] theorem attempt_before (k : FieldKind) (c : Cursor) : (k.attempt c).before = c := by
  unfold FieldKind.attempt
  split <;> rfl

theorem attempt_after (k : FieldKind) (c : Cursor) :
    (k.attempt c).after = cursorAfter (k.read c) := by
  unfold FieldKind.attempt cursorAfter
  split <;> rename_i h <;> rw [h]

theorem reaches_attempt (k : FieldKind) (c : Cursor) : c.Reaches (k.attempt c).after := by
  rw [attempt_after]
  exact k.forward_read c

theorem read_of_outcome_ok {f : Field} (h : (k.attempt c).outcome = .ok f) :
    k.read c = .ok f (k.attempt c).after := by
  cases hread : k.read c with
  | ok g d =>
    rw [attempt_of_ok hread] at h ⊢
    cases h
    rfl
  | error e d =>
    rw [attempt_of_error hread] at h
    cases h

theorem read_of_outcome_error {e : Error} (h : (k.attempt c).outcome = .error e) :
    k.read c = .error e (k.attempt c).after := by
  cases hread : k.read c with
  | ok f d =>
    rw [attempt_of_ok hread] at h
    cases h
  | error e' d =>
    rw [attempt_of_error hread] at h ⊢
    cases h
    rfl

end

section

variable {slice : Bytes} {c d : Cursor} (hc : c.StandsIn slice)
include hc

theorem attempt_value {k : FieldKind} {f : Field} (h : (k.attempt c).outcome = .ok f) :
    Reads k.read (slice.extract c.offset (k.attempt c).after.offset) f ∧
      ∀ front, front <+: slice.extract c.offset (k.attempt c).after.offset →
        front ≠ slice.extract c.offset (k.attempt c).after.offset →
        ∀ offset, RunsOut k.read ⟨offset, front⟩ := by
  have hread := read_of_outcome_ok h
  obtain ⟨used, hused, hreads⟩ := k.relocates.reads hread
  rw [hc.extract_eq hused (hreads.offset_eq hused hread)]
  exact ⟨hreads, fun front hfront hne offset => Reads.runsOut k.stable hreads hfront hne offset⟩

/-- What is asked for as a whole is read if there is room for it, and otherwise nothing is. -/
theorem bytes_in_slice (width : Nat) :
    if c.offset + width ≤ slice.length then
      ∃ taken after, (PackedMovie.Reader.bytes width : Reader Bytes) c = .ok taken after ∧
        after.offset = c.offset + width
    else (PackedMovie.Reader.bytes width : Reader Bytes) c = .error .unexpectedEnd c := by
  have hlength := hc.length_rest
  split
  · exact ⟨_, _, bytes_of_le (by omega), rfl⟩
  · exact bytes_short (by omega)

/-- So is a field whose last bytes, from `c` on, are asked for as a whole. -/
theorem attempt_of_bytes {k : FieldKind} {start : Cursor} {width : Nat} {make : Bytes → Field}
    (h : k.read start = (make <$> PackedMovie.Reader.bytes width : Reader Field) c) :
    if c.offset + width ≤ slice.length then
      (∃ f, (k.attempt start).outcome = .ok f) ∧ (k.attempt start).after.offset = c.offset + width
    else (k.attempt start).outcome = .error .unexpectedEnd ∧ (k.attempt start).after = c := by
  have hbytes := bytes_in_slice hc width
  split at hbytes
  · rename_i hroom
    obtain ⟨taken, after, htaken, hplace⟩ := hbytes
    have hread := h.trans (PackedMovie.Reader.map_eq_ok_iff.2 ⟨taken, htaken, rfl⟩)
    simp [hroom, attempt_of_ok hread, hplace]
  · rename_i hroom
    have hread := h.trans (map_eq_error_iff.2 hbytes)
    simp [hroom, attempt_of_error hread]

theorem attempt_fixed {k : FieldKind} {width : Nat} (h : k.width? = some width) :
    if c.offset + width ≤ slice.length then
      (∃ f, (k.attempt c).outcome = .ok f) ∧ (k.attempt c).after.offset = c.offset + width
    else (k.attempt c).outcome = .error .unexpectedEnd ∧ (k.attempt c).after = c := by
  obtain ⟨make, hmake⟩ := k.read_of_width h
  exact attempt_of_bytes hc (congrFun hmake c)

/-- What stops an integer has used up its bytes. -/
theorem Refused.stops {e : Error} (h : Refused c e d) : StopsInteger slice c e d := by
  cases h with
  | overlong => exact .overlong rfl
  | cut => exact .cut hc.length_rest

theorem attempt_integer {k : FieldKind} (h : k = .u30 ∨ k = .s32) {e : Error}
    (he : (k.attempt c).outcome = .error e) : StopsInteger slice c e (k.attempt c).after := by
  have hread := read_of_outcome_error he
  rcases h with rfl | rfl
  · exact ((readsIntegers_u30.refuses _ _ _).1 (map_eq_error_iff.1 hread)).stops hc
  · exact ((readsIntegers_s32.refuses _ _ _).1 (map_eq_error_iff.1 hread)).stops hc

theorem attempt_string : match Reader.u30 c with
    | .error e after => (FieldKind.string.attempt c).outcome = .error e ∧
        (FieldKind.string.attempt c).after = after ∧ StopsInteger slice c e after
    | .ok length after =>
      if after.offset + length.toNat ≤ slice.length then
        (∃ f, (FieldKind.string.attempt c).outcome = .ok f) ∧
          (FieldKind.string.attempt c).after.offset = after.offset + length.toNat
      else (FieldKind.string.attempt c).outcome = .error .unexpectedEnd ∧
        (FieldKind.string.attempt c).after = after := by
  cases hlength : Reader.u30 c with
  | error e after =>
    have hread : FieldKind.string.read c = .error e after :=
      map_eq_error_iff.2 (PackedMovie.Reader.error_bind hlength)
    rw [attempt_of_error hread]
    exact ⟨rfl, rfl, ((readsIntegers_u30.refuses _ _ _).1 hlength).stops hc⟩
  | ok length after =>
    have hafter : after.StandsIn slice := by
      have hforward := Reader.forward_u30 c
      rw [hlength] at hforward
      exact hc.of_reaches hforward
    have hstring : FieldKind.string.read c =
        ((fun text => Field.string (Utf8.decodeLossy text)) <$>
          (PackedMovie.Reader.bytes length.toNat : Reader Bytes)) after := by
      simp only [FieldKind.read, Reader.string, Functor.map, EStateM.map, Bind.bind, EStateM.bind,
        hlength]
      cases (PackedMovie.Reader.bytes length.toNat : Reader Bytes) after <;> rfl
    exact attempt_of_bytes hafter hstring

theorem attempt_sound (k : FieldKind) : (k.attempt c).Sound slice where
  onward := by
    obtain ⟨used, -, hplace⟩ := reaches_attempt k c
    simp [hplace]
  inside := (hc.of_reaches (reaches_attempt k c)).offset_le
  value f h := by
    rw [attempt_kind, attempt_before]
    exact attempt_value hc h
  fixed width h := by
    rw [attempt_kind] at h
    rw [attempt_before]
    exact attempt_fixed hc h
  integer h e he := by
    rw [attempt_kind] at h
    rw [attempt_before]
    exact attempt_integer hc h he
  string h := by
    rw [attempt_kind] at h
    subst h
    rw [attempt_before]
    exact attempt_string hc

end

/-! ### Whole runs -/

theorem sound_of_mem_attempts {slice : Bytes} {c : Cursor} (hc : c.StandsIn slice)
    (kinds : List FieldKind) : ∀ a ∈ attempts c kinds, c.offset ≤ a.before.offset ∧ a.Sound slice := by
  induction kinds generalizing c with
  | nil => simp [attempts]
  | cons k kinds ih =>
    have hsound := attempt_sound hc k
    have honward := hsound.onward
    rw [attempt_before] at honward
    intro a ha
    rcases List.mem_cons.1 ha with rfl | ha
    · exact ⟨by simp, hsound⟩
    · obtain ⟨hplace, hrest⟩ := ih (hc.of_reaches (reaches_attempt k c)) a ha
      exact ⟨Nat.le_trans honward hplace, hrest⟩

theorem pairwise_attempts {slice : Bytes} {c : Cursor} (hc : c.StandsIn slice)
    (kinds : List FieldKind) :
    (attempts c kinds).Pairwise fun a b => a.after.offset ≤ b.before.offset := by
  induction kinds generalizing c with
  | nil => exact .nil
  | cons k kinds ih =>
    have hnext := hc.of_reaches (reaches_attempt k c)
    exact .cons (fun b hb => (sound_of_mem_attempts hnext kinds b hb).1) (ih hnext)

/-- Whatever reads are tried one after another, failed ones among them, each begins no earlier than
those before it have stopped, and is sound. -/
theorem attempts_sound (slice : Bytes) (kinds : List FieldKind) :
    (attempts (.ofBytes slice) kinds).map Attempt.kind = kinds ∧
      (attempts (.ofBytes slice) kinds).Pairwise
        (fun a b => a.after.offset ≤ b.before.offset) ∧
      ∀ a ∈ attempts (.ofBytes slice) kinds, a.Sound slice := by
  have hstart := Cursor.StandsIn.ofBytes slice
  refine ⟨map_kind_attempts _ kinds, pairwise_attempts hstart kinds, ?_⟩
  intro a ha
  exact (sound_of_mem_attempts hstart kinds a ha).2

end Abc
end PackedMovie
