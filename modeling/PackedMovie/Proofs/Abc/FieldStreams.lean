import PackedMovie.Proofs.Code.Decoding

/-!
# Streams of fields read back

Fields of all kinds may follow one another. When each is asked for by its kind, in order, it is read
as it was written, and the reader stands where the writer stood behind it, whatever bytes come after
them. Only an offset that is too large for three bytes comes back as something else: as its low 24
bits, extended by their sign.

Main statement: `attempts_written`.
-/
namespace PackedMovie.Abc

open PackedMovie.Code (Directive FitsBranch low24 low24_eq operands_jump)
open PackedMovie.Reader (Reads)

/-- What the field has to be asked for as. -/
def Field.kind : Field → FieldKind
  | .u8 _ => .u8
  | .u16 _ => .u16
  | .u30 _ => .u30
  | .s24 _ => .s24
  | .s32 _ => .s32
  | .d64 _ => .d64
  | .bytes raw => .bytes raw.length
  | .string _ => .string

/-- What the field is read back as. -/
def Field.readBack : Field → Field
  | .s24 n => .s24 (low24 n).toInt32
  | f => f

/-- The length of a string can be written in front of it. -/
def Field.IsWritable : Field → Prop
  | .string text => Fits (Utf8.encode text)
  | _ => True

instance : DecidablePred Field.IsWritable := fun f => by
  cases f <;> unfold Field.IsWritable <;> infer_instance

/-- What a writer has written after some fields. -/
def written (fields : List Field) : Bytes := fields.flatMap Field.write

@[simp] theorem written_nil : written [] = [] := rfl

@[simp] theorem written_cons (f : Field) (fields : List Field) :
    written (f :: fields) = f.write ++ written fields := List.flatMap_cons

/-! ### One field -/

theorem Field.readBack_eq {f : Field} (h : ∀ n, f = .s24 n → FitsBranch n) : f.readBack = f := by
  cases f with
  | s24 n =>
    have hlow : low24 n = n.toUInt32 := low24_eq (h n rfl)
    simp [readBack, hlow]
  | _ => rfl

theorem reads_s24 (n : Int32) :
    Reads (PackedMovie.Reader.s24 : Reader Int32) (Write.s24 n) (low24 n).toInt32 := by
  have hlow : low24 n = _ := (List.cons.inj (operands_jump n)).1.symm
  rw [hlow, Int32.toInt32_toUInt32]
  exact Reads.s24 n.toUInt32.toNat

theorem Field.reads {f : Field} (h : f.IsWritable) : Reads f.kind.read f.write f.readBack := by
  cases f with
  | u8 n => exact (Reads.u8 n).map Field.u8
  | u16 n => exact (Reads.u16 n).map Field.u16
  | u30 n => exact (reads_u30 n).map Field.u30
  | s24 n => exact (reads_s24 n).map Field.s24
  | s32 n => exact (reads_s32 n).map Field.s32
  | d64 bits => exact (Reads.u64 bits).map Field.d64
  | bytes raw => exact (Reads.bytes raw).map Field.bytes
  | string text => exact (reads_string h).map Field.string

/-! ### Streams -/

theorem attempt_of_ok {k : FieldKind} {c d : Cursor} {f : Field} (h : k.read c = .ok f d) :
    k.attempt c = ⟨k, c, .ok f, d⟩ := by
  simp only [FieldKind.attempt, h]

@[simp] theorem attempt_kind (k : FieldKind) (c : Cursor) : (k.attempt c).kind = k := by
  unfold FieldKind.attempt
  split <;> rfl

theorem map_kind_attempts (c : Cursor) (kinds : List FieldKind) :
    (attempts c kinds).map Attempt.kind = kinds := by
  induction kinds generalizing c with
  | nil => rfl
  | cons k kinds ih => simp [attempts, ih]

theorem length_attempts (c : Cursor) (kinds : List FieldKind) :
    (attempts c kinds).length = kinds.length := by
  have hkinds := congrArg List.length (map_kind_attempts c kinds)
  rwa [List.length_map] at hkinds

/-- A field is met behind those that were written before it. -/
theorem getElem?_attempts_written {front back : List Field} {f : Field}
    (hfront : ∀ g ∈ front, g.IsWritable) (hf : f.IsWritable) (offset : Nat) (rest : Bytes) :
    (attempts ⟨offset, written (front ++ f :: back) ++ rest⟩
        ((front ++ f :: back).map Field.kind))[front.length]? =
      some ⟨f.kind, ⟨offset + (written front).length, written (f :: back) ++ rest⟩,
        .ok f.readBack, ⟨offset + (written (front ++ [f])).length, written back ++ rest⟩⟩ := by
  induction front generalizing offset with
  | nil =>
    have hread := attempt_of_ok (Field.reads hf offset (written back ++ rest))
    simp [attempts, hread]
  | cons g front ih =>
    rw [List.forall_mem_cons] at hfront
    have hread := attempt_of_ok (Field.reads hfront.1 offset
      (written (front ++ f :: back) ++ rest))
    have hnext := ih hfront.2 (offset + g.write.length)
    simp only [List.cons_append, List.map_cons, written_cons, List.append_assoc, attempts, hread,
      List.length_cons, List.getElem?_cons_succ, List.length_append, Nat.add_assoc] at hnext ⊢
    exact hnext

/-- Written fields are read back in order, each at the length that was written before it and up to
the length that was written with it. -/
theorem attempts_written {fields : List Field} (h : ∀ f ∈ fields, f.IsWritable) (rest : Bytes) :
    (attempts (.ofBytes (written fields ++ rest)) (fields.map Field.kind)).length =
        fields.length ∧
      ∀ front f back, fields = front ++ f :: back →
        ∃ a, (attempts (.ofBytes (written fields ++ rest)) (fields.map Field.kind))[front.length]? =
            some a ∧
          a.before.offset = (written front).length ∧
          a.after.offset = (written (front ++ [f])).length ∧
          a.outcome = .ok f.readBack ∧
          ((∀ n, f = .s24 n → FitsBranch n) → a.outcome = .ok f) := by
  refine ⟨by simp [length_attempts], ?_⟩
  rintro front f back rfl
  have hfront : ∀ g ∈ front, g.IsWritable := fun g hg => h g (List.mem_append_left _ hg)
  have hf : f.IsWritable := h f (List.mem_append_right _ List.mem_cons_self)
  refine ⟨_, getElem?_attempts_written hfront hf 0 rest, Nat.zero_add _, Nat.zero_add _, rfl, ?_⟩
  intro hfits
  rw [Field.readBack_eq hfits]

/-- Numbers at the edges of their groups, an offset of 25 bits, and a double that is no number. -/
def unaligned : List Field :=
  [.u8 200, .s32 (-65), .u30 0x10000000, .s24 0x01000005, .d64 0x7FF0000000000001, .bytes [0x80],
    .string "ü", .u16 513]

theorem attempts_written_unaligned :
    (∀ f ∈ unaligned, f.IsWritable) ∧
      (∃ a, (attempts (.ofBytes (written unaligned ++ [0xFF]))
          (unaligned.map Field.kind))[3]? = some a ∧
        a.before.offset = 8 ∧ a.after.offset = 11 ∧ a.outcome = .ok (.s24 5)) ∧
      ∃ a, (attempts (.ofBytes (written unaligned ++ [0xFF]))
          (unaligned.map Field.kind))[6]? = some a ∧
        a.before.offset = 20 ∧ a.after.offset = 23 ∧ a.outcome = .ok (.string "ü") := by
  have hwritable : ∀ f ∈ unaligned, f.IsWritable := by decide +kernel
  obtain ⟨-, hplaces⟩ := attempts_written hwritable [0xFF]
  refine ⟨hwritable, ?_, ?_⟩
  · obtain ⟨a, ha, hbefore, hafter, houtcome, -⟩ :=
      hplaces (unaligned.take 3) (.s24 0x01000005) (unaligned.drop 4) rfl
    exact ⟨a, ha, hbefore.trans (by decide +kernel), hafter.trans (by decide +kernel), houtcome⟩
  · obtain ⟨a, ha, hbefore, hafter, -, houtcome⟩ :=
      hplaces (unaligned.take 6) (.string "ü") (unaligned.drop 7) rfl
    exact ⟨a, ha, hbefore.trans (by decide +kernel), hafter.trans (by decide +kernel),
      houtcome (by simp)⟩

end PackedMovie.Abc
