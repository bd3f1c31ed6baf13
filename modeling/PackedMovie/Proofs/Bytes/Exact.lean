import PackedMovie.Bytes.Reader

/-!
# Exact readers

A reader *reads* a byte string *as* a value if it takes just these bytes off the front of any input
and makes the value of them. Bytes *lead* a reader to another if it goes on as the other behind them.
A reader *yields* a property if every value it gives has the property. All of this passes from the
parts of a reader to the whole, which is how a record is proved from its fields.
-/
namespace PackedMovie.Reader

variable {ε α β : Type}

theorem runOn_eq_ok_iff {r : Reader ε α} {bytes : Bytes} {a : α} :
    r.runOn bytes = .ok a ↔ ∃ d, r (.ofBytes bytes) = .ok a d := by
  rw [Reader.runOn]
  cases r (.ofBytes bytes) <;> simp

/-! ### Reading a written form -/

/-- `r` takes exactly `bytes` off the front, wherever they stand, and makes `a` of them. -/
def Reads (r : Reader ε α) (bytes : Bytes) (a : α) : Prop :=
  ∀ offset rest, r ⟨offset, bytes ++ rest⟩ = .ok a ⟨offset + bytes.length, rest⟩

theorem Reads.runOn {r : Reader ε α} {bytes : Bytes} {a : α} (h : Reads r bytes a) (rest : Bytes) :
    r.runOn (bytes ++ rest) = .ok a := by
  simp only [Reader.runOn, Cursor.ofBytes, h 0 rest]

theorem Reads.pure (a : α) : Reads (Pure.pure a : Reader ε α) [] a := fun _ _ => rfl

theorem Reads.bind {r : Reader ε α} {f : α → Reader ε β} {front back : Bytes} {a : α} {b : β}
    (hr : Reads r front a) (hf : Reads (f a) back b) : Reads (r >>= f) (front ++ back) b := by
  intro offset rest
  refine bind_eq_ok_iff.2 ⟨a, ⟨offset + front.length, back ++ rest⟩, ?_, ?_⟩
  · rw [List.append_assoc]
    exact hr offset (back ++ rest)
  · rw [List.length_append, ← Nat.add_assoc]
    exact hf (offset + front.length) rest

/-- What a step does behind one that has read its part. -/
theorem Reads.bind_eq {r : Reader ε α} {f : α → Reader ε β} {bytes : Bytes} {a : α}
    (hr : Reads r bytes a) (offset : Nat) (rest : Bytes) :
    (r >>= f) ⟨offset, bytes ++ rest⟩ = f a ⟨offset + bytes.length, rest⟩ := by
  simp only [Bind.bind, EStateM.bind]
  rw [hr offset rest]

theorem Reads.offset_eq {r : Reader ε α} {bytes : Bytes} {a : α} (h : Reads r bytes a)
    {c d : Cursor} (hrest : c.rest = bytes ++ d.rest) (hread : r c = .ok a d) :
    d.offset = c.offset + bytes.length := by
  have hplace := h c.offset d.rest
  rw [← hrest] at hplace
  exact congrArg Cursor.offset (EStateM.Result.ok.inj (hread.symm.trans hplace)).2

/-- Behind `bytes`, wherever they stand, `r` goes on as `next`. -/
def Leads (r : Reader ε α) (bytes : Bytes) (next : Reader ε α) : Prop :=
  ∀ offset rest, r ⟨offset, bytes ++ rest⟩ = next ⟨offset + bytes.length, rest⟩

theorem Reads.leads {r : Reader ε α} {bytes : Bytes} {a : α} (hr : Reads r bytes a)
    (f : α → Reader ε β) : Leads (r >>= f) bytes (f a) := hr.bind_eq

theorem Leads.trans {r next last : Reader ε α} {front back : Bytes} (h : Leads r front next)
    (h' : Leads next back last) : Leads r (front ++ back) last := by
  intro offset rest
  rw [List.append_assoc, h, h', List.length_append, Nat.add_assoc]

theorem Reads.bind_leads {r : Reader ε α} {f : α → Reader ε β} {next : Reader ε β}
    {front back : Bytes} {a : α} (hr : Reads r front a) (hf : Leads (f a) back next) :
    Leads (r >>= f) (front ++ back) next := (hr.leads f).trans hf

theorem Leads.reads {r next : Reader ε α} {front back : Bytes} {a : α} (h : Leads r front next)
    (hnext : Reads next back a) : Reads r (front ++ back) a := by
  intro offset rest
  rw [List.append_assoc, h, hnext, List.length_append, Nat.add_assoc]

/-- The last step of a record: nothing is read behind it. -/
theorem Reads.bind_pure {r : Reader ε α} {f : α → β} {bytes : Bytes} {a : α}
    (hr : Reads r bytes a) : Reads (r >>= fun a => Pure.pure (f a)) bytes (f a) := by
  have h := hr.bind (f := fun a => Pure.pure (f a)) (Reads.pure (f a))
  rwa [List.append_nil] at h

theorem Reads.map {r : Reader ε α} {bytes : Bytes} {a : α} (f : α → β) (hr : Reads r bytes a) :
    Reads (f <$> r) bytes (f a) := by
  intro offset rest
  exact map_eq_ok_iff.2 ⟨a, hr offset rest, rfl⟩

theorem get_bind_eq (f : Cursor → Reader ε α) (c : Cursor) :
    ((MonadState.get : Reader ε Cursor) >>= f) c = f c c := rfl

/-- A step that first looks where it stands. -/
theorem Reads.get_bind {f : Cursor → Reader ε α} {bytes : Bytes} {a : α}
    (hf : ∀ c, Reads (f c) bytes a) : Reads (MonadState.get >>= f) bytes a := by
  intro offset rest
  exact hf ⟨offset, bytes ++ rest⟩ offset rest

theorem Reads.under {r : Reader ε α} {bytes : Bytes} {a absent : α} {present : Bool}
    (hr : present = true → Reads r bytes a) (ha : present = false → a = absent) :
    Reads (Reader.under present absent r) (if present then bytes else []) a := by
  cases present with
  | true => exact hr rfl
  | false =>
    rw [ha rfl]
    exact Reads.pure absent

/-- Members that are read as their images under `f`, one after another. -/
theorem Reads.times_map {r : Reader ε β} {write : α → Bytes} {f : α → β} {members : List α}
    (h : ∀ a ∈ members, Reads r (write a) (f a)) :
    Reads (Reader.times members.length r) (members.flatMap write) (members.map f) := by
  induction members with
  | nil => exact Reads.pure []
  | cons a rest ih =>
    have hrest := ih fun b hb => h b (List.mem_cons_of_mem a hb)
    exact (h a List.mem_cons_self).bind hrest.bind_pure

theorem Reads.times {r : Reader ε α} {write : α → Bytes} {members : List α}
    (h : ∀ a ∈ members, Reads r (write a) a) :
    Reads (Reader.times members.length r) (members.flatMap write) members := by
  have hmap := Reads.times_map (f := id) h
  rwa [List.map_id] at hmap

/-! ### Words -/

section Primitive

variable [EndOfBytes ε]

theorem Reads.bytes (raw : Bytes) : Reads (Reader.bytes raw.length : Reader ε Bytes) raw raw :=
  fun offset rest => bytes_append offset raw rest

theorem Reads.word (width n : Nat) :
    Reads (Reader.word width : Reader ε Nat) (LittleEndian.encode width n)
      (n % Nat.pow 256 width) := by
  have h := (Reads.bytes (ε := ε) (LittleEndian.encode width n)).map LittleEndian.decode
  rw [LittleEndian.length_encode, LittleEndian.decode_encode] at h
  exact h

theorem Reads.u8 (n : UInt8) : Reads (Reader.u8 : Reader ε UInt8) [n] n :=
  fun offset rest => u8_cons offset n rest

theorem Reads.u16 (n : UInt16) :
    Reads (Reader.u16 : Reader ε UInt16) (LittleEndian.encode 2 n.toNat) n := by
  have h := (Reads.word (ε := ε) 2 n.toNat).map UInt16.ofNat
  rwa [show n.toNat % Nat.pow 256 2 = n.toNat from Nat.mod_eq_of_lt n.toNat_lt,
    UInt16.ofNat_toNat] at h

theorem Reads.u32 (n : Nat) :
    Reads (Reader.u32 : Reader ε UInt32) (LittleEndian.encode 4 n) (UInt32.ofNat n) := by
  have h := (Reads.word (ε := ε) 4 n).map UInt32.ofNat
  rwa [show UInt32.ofNat (n % Nat.pow 256 4) = UInt32.ofNat n from UInt32.ofNat_mod_size] at h

theorem Reads.u64 (n : UInt64) :
    Reads (Reader.u64 : Reader ε UInt64) (LittleEndian.encode 8 n.toNat) n := by
  have h := (Reads.word (ε := ε) 8 n.toNat).map UInt64.ofNat
  rwa [show n.toNat % Nat.pow 256 8 = n.toNat from Nat.mod_eq_of_lt n.toNat_lt,
    UInt64.ofNat_toNat] at h

/-- The low three bytes of a word, with the sign that their highest bit says. -/
theorem Reads.s24 (n : Nat) : Reads (Reader.s24 : Reader ε Int32) (LittleEndian.encode 3 n)
    (Int32.ofInt (Int.bmod (n % Nat.pow 2 24 : Nat) (Nat.pow 2 24))) :=
  (Reads.word (ε := ε) 3 n).map fun n : Nat =>
    Int32.ofInt (Int.bmod (n : Int) (Nat.pow 2 24))

end Primitive

/-! ### Properties of all that is read -/

/-- Every value that `r` gives has the property `P`. -/
def Yields (r : Reader ε α) (P : α → Prop) : Prop := ∀ c d a, r c = .ok a d → P a

theorem Yields.of_runOn {r : Reader ε α} {P : α → Prop} (h : Yields r P) {bytes : Bytes} {a : α}
    (hrun : r.runOn bytes = .ok a) : P a := by
  obtain ⟨d, ha⟩ := runOn_eq_ok_iff.1 hrun
  exact h _ d a ha

theorem Yields.trivial (r : Reader ε α) : Yields r fun _ => True := fun _ _ _ _ => True.intro

theorem Yields.mono {r : Reader ε α} {P Q : α → Prop} (h : Yields r P) (hPQ : ∀ a, P a → Q a) :
    Yields r Q := fun c d a ha => hPQ a (h c d a ha)

theorem Yields.pure {a : α} {P : α → Prop} (h : P a) : Yields (Pure.pure a : Reader ε α) P := by
  intro c d b hb
  cases hb
  exact h

theorem Yields.throw (e : ε) (P : α → Prop) : Yields (MonadExcept.throw e : Reader ε α) P := by
  intro c d b hb
  cases hb

theorem Yields.bind {r : Reader ε α} {f : α → Reader ε β} {P : α → Prop} {Q : β → Prop}
    (hr : Yields r P) (hf : ∀ a, P a → Yields (f a) Q) : Yields (r >>= f) Q := by
  intro c d b hb
  obtain ⟨a, e, ha, hfa⟩ := bind_eq_ok_iff.1 hb
  exact hf a (hr c e a ha) e d b hfa

theorem Yields.map {r : Reader ε α} {f : α → β} {Q : β → Prop} (hr : Yields r fun a => Q (f a)) :
    Yields (f <$> r) Q := by
  intro c d b hb
  obtain ⟨a, ha, rfl⟩ := map_eq_ok_iff.1 hb
  exact hr c d a ha

theorem Yields.under {r : Reader ε α} {P : α → Prop} {absent : α} {present : Bool}
    (hr : present = true → Yields r P) (ha : present = false → P absent) :
    Yields (Reader.under present absent r) P := by
  cases present with
  | true => exact hr rfl
  | false => exact Yields.pure (ha rfl)

theorem Yields.times {r : Reader ε α} {P : α → Prop} (hr : Yields r P) (count : Nat) :
    Yields (Reader.times count r) fun members => members.length = count ∧ ∀ a ∈ members, P a := by
  induction count with
  | zero => exact Yields.pure ⟨rfl, by simp⟩
  | succ count ih =>
    refine hr.bind fun a ha => ih.bind fun rest hrest => Yields.pure ?_
    constructor
    · rw [List.length_cons, hrest.1]
    · intro b hb
      rcases List.mem_cons.1 hb with rfl | hb
      · exact ha
      · exact hrest.2 b hb

theorem Yields.bytes [EndOfBytes ε] (count : Nat) :
    Yields (Reader.bytes count : Reader ε Bytes) fun raw => raw.length = count :=
  fun _ _ _ h => (bytes_eq_ok_iff.1 h).1

end PackedMovie.Reader
