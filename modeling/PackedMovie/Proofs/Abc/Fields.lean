import Mathlib.Tactic.MkIffOfInductiveProp
import PackedMovie.Abc.Field
import PackedMovie.Proofs.Bytes.Base128
import PackedMovie.Proofs.Bytes.Exact
import PackedMovie.Proofs.Text.Utf8

/-!
# Fields read back

Each kind of field is read as what was written. Strings and lists have their length in front, in an
integer of 32 bits, so they read back only if their length is below 2³².
-/
namespace PackedMovie.Abc

open PackedMovie.Reader (Reads Yields)

/-- The length of the list can be written in 32 bits. -/
def Fits {α : Type} (members : List α) : Prop := members.length < UInt32.size

instance {α : Type} : DecidablePred (Fits (α := α)) :=
  fun _ => inferInstanceAs (Decidable (_ < UInt32.size))

theorem fits_nil {α : Type} : Fits ([] : List α) := by
  change 0 < UInt32.size
  decide

/-- A list that a file can hold if it can hold the members. -/
@[mk_iff] structure Listed {α : Type} (P : α → Prop) (members : List α) : Prop where
  fits : Fits members
  each : ∀ a ∈ members, P a

instance {α : Type} (P : α → Prop) [DecidablePred P] (members : List α) :
    Decidable (Listed P members) :=
  decidable_of_iff _ (listed_iff P members).symm

theorem listed_nil {α : Type} (P : α → Prop) : Listed P [] := ⟨fits_nil, by simp⟩

theorem Listed.of_fits {α : Type} {members : List α} (h : Fits members) :
    Listed (fun _ => True) members := ⟨h, fun _ _ => True.intro⟩

/-! ### Integers -/

theorem reads_groups {run : Bytes} (h : Base128.IsRun run) (start : Nat) {count : Nat}
    (hlen : run.length ≤ count) : Reads (Reader.groups start count) run run := by
  induction h generalizing count with
  | @last b hlast =>
    cases count with
    | zero => simp at hlen
    | succ count =>
      change Reads _ ([b] ++ []) _
      apply (Reads.u8 b).bind
      rw [if_pos hlast]
      exact Reads.pure [b]
  | @more b rest hlast _ ih =>
    cases count with
    | zero => simp at hlen
    | succ count =>
      change Reads _ ([b] ++ rest) _
      apply (Reads.u8 b).bind
      rw [if_neg (by simp [hlast])]
      exact (ih (Nat.le_of_succ_le_succ hlen)).bind_pure

theorem reads_integer {run : Bytes} (h : Base128.IsRun run) (hlen : run.length ≤ maxGroups) :
    Reads Reader.integer run run := Reads.get_bind fun c => reads_groups h c.offset hlen

theorem length_write_u30_le (n : UInt32) : (Write.u30 n).length ≤ maxGroups := by
  have hn := n.toNat_lt
  have hpow : Nat.pow 128 (4 + 1) = 34359738368 := rfl
  exact Base128.length_encode_le (by omega)

theorem reads_u30 (n : UInt32) : Reads Reader.u30 (Write.u30 n) n := by
  have h := (reads_integer (Base128.isRun_encode n.toNat) (length_write_u30_le n)).map
    fun gs => UInt32.ofNat (Base128.value gs)
  rwa [Base128.value_encode, UInt32.ofNat_toNat] at h

theorem length_write_s32_le (n : Int32) : (Write.s32 n).length ≤ maxGroups := by
  have hlow := n.le_toInt
  have hhigh := n.toInt_lt
  have hpow : Nat.pow 128 4 = 268435456 := rfl
  exact Base128.length_encodeSigned_le (by omega) (by omega)

/-- Five groups hold all 32 bits, and bits beyond them do not count. -/
theorem ofInt_value_encodeSigned {n : Int32} (hlen : (Write.s32 n).length = maxGroups) :
    Int32.ofInt (Base128.value (Write.s32 n)) = n := by
  have hlow := n.le_toInt
  have hhigh := n.toInt_lt
  have hvalue := Base128.value_encodeSigned n.toInt
  rw [show Base128.encodeSigned n.toInt = Write.s32 n from rfl, hlen,
    show Nat.pow 128 maxGroups = 34359738368 from rfl] at hvalue
  rw [← Int32.toInt_inj, Int32.toInt_ofInt, hvalue, Int.bmod_def,
    show Int32.size = 4294967296 from rfl]
  split <;> omega

theorem reads_s32 (n : Int32) : Reads Reader.s32 (Write.s32 n) n := by
  have hlen := length_write_s32_le n
  have hrun : Base128.IsRun (Write.s32 n) := Base128.isRun_encodeSigned n.toInt
  have h := (reads_integer hrun hlen).map fun gs : Bytes => Int32.ofInt
    (if gs.length < maxGroups then Base128.signedValue gs else Base128.value gs)
  by_cases hshort : (Write.s32 n).length < maxGroups
  · have hvalue : Base128.signedValue (Write.s32 n) = n.toInt :=
      Base128.signedValue_encodeSigned n.toInt
    rwa [if_pos hshort, hvalue, Int32.ofInt_toInt] at h
  · have hvalue := ofInt_value_encodeSigned (Nat.le_antisymm hlen (Nat.not_lt.1 hshort))
    rwa [if_neg hshort, hvalue] at h

/-! ### Strings and lists -/

theorem reads_length (n : Nat) : Reads Reader.u30 (Write.length n) (UInt32.ofNat n) :=
  reads_u30 (UInt32.ofNat n)

theorem toNat_length {α : Type} {members : List α} (h : Fits members) :
    (UInt32.ofNat members.length).toNat = members.length := UInt32.toNat_ofNat_of_lt' h

theorem reads_string {text : String} (h : Fits (Utf8.encode text)) :
    Reads Reader.string (Write.string text) text := by
  have htext := (Reads.bytes (ε := Error) (Utf8.encode text)).bind_pure (f := Utf8.decodeLossy)
  rw [Utf8.decodeLossy_encode] at htext
  apply (reads_length _).bind
  rw [toNat_length h]
  exact htext

section Lists

variable {α : Type} {P : α → Prop} {r : Reader α}

theorem reads_counted {write : α → Bytes} {members : List α}
    (hmembers : Listed P members) (hr : ∀ a, P a → Reads r (write a) a) :
    Reads (Reader.counted r) (Write.counted write members) members := by
  apply (reads_length _).bind
  rw [toNat_length hmembers.fits]
  exact Reads.times fun a ha => hr a (hmembers.each a ha)

theorem reads_indices {indices : List UInt32} (h : Fits indices) :
    Reads (Reader.counted Reader.u30) (Write.counted Write.u30 indices) indices :=
  reads_counted (Listed.of_fits h) fun n _ => reads_u30 n

/-- A count holds 32 bits, so any list that is read can be written again. -/
theorem yields_counted (hr : Yields r P) : Yields (Reader.counted r) (Listed P) := by
  refine (Yields.trivial Reader.u30).bind fun count _ => ?_
  refine (Yields.times hr count.toNat).mono fun members h => ⟨?_, h.2⟩
  rw [Fits, h.1]
  exact count.toNat_lt

theorem yields_counted_fits : Yields (Reader.counted r) Fits :=
  (yields_counted (Yields.trivial r)).mono fun _ h => h.fits

end Lists

end PackedMovie.Abc
