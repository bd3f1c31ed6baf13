import PackedMovie.Bytes.LittleEndian

/-!
# Reading a byte string from front to back

A reader takes values off the front of the unread bytes. It leaves a cursor behind whether it
succeeds or fails, so reading can go on after a failure. Readers are generic in their errors; all
they ask for is the error that says the bytes ran out.

Main statement: a reader built from these pieces only moves forward (`Reader.Forward`), which is
what ends every loop that reads until nothing is left.
-/
namespace PackedMovie

/-- The unread bytes, and how many were read before them. -/
structure Cursor where
  offset : Nat
  rest : Bytes
  deriving DecidableEq, Repr

namespace Cursor

def ofBytes (bytes : Bytes) : Cursor := ⟨0, bytes⟩

def isAtEnd (c : Cursor) : Bool := c.rest.isEmpty

/-- The next `count` bytes, if there are that many. -/
def take? (count : Nat) (c : Cursor) : Option (Bytes × Cursor) :=
  let taken := c.rest.take count
  if taken.length = count then some (taken, ⟨c.offset + count, c.rest.drop count⟩) else none

/-- `d` is reached from `c` by reading the bytes between them. -/
def Reaches (c d : Cursor) : Prop :=
  ∃ used, c.rest = used ++ d.rest ∧ d.offset = c.offset + used.length

theorem Reaches.refl (c : Cursor) : c.Reaches c := ⟨[], by simp⟩

theorem Reaches.trans {c d e : Cursor} : c.Reaches d → d.Reaches e → c.Reaches e := by
  rintro ⟨u, hu, ho⟩ ⟨v, hv, hp⟩
  exact ⟨u ++ v, by simp [hu, hv], by simp [hp, ho, Nat.add_assoc]⟩

theorem Reaches.length_le {c d : Cursor} : c.Reaches d → d.rest.length ≤ c.rest.length := by
  rintro ⟨u, hu, _⟩
  simp [hu]

theorem take?_reaches {count : Nat} {c d : Cursor} {bytes : Bytes}
    (h : c.take? count = some (bytes, d)) : c.Reaches d := by
  simp only [take?, Option.ite_none_right_eq_some, Option.some.injEq, Prod.mk.injEq] at h
  obtain ⟨hlen, _, rfl⟩ := h
  exact ⟨c.rest.take count, by simp [hlen]⟩

end Cursor

/-- A step that reads from a cursor and leaves one behind, also when it fails. -/
abbrev Reader (ε α : Type) := EStateM ε Cursor α

/-- Errors among which one says that the bytes ended too early. -/
class EndOfBytes (ε : Type) where
  unexpectedEnd : ε

namespace Reader

variable {ε α β : Type}

/-- The cursor that a finished step leaves behind. -/
def cursorAfter : EStateM.Result ε Cursor α → Cursor
  | .ok _ c => c
  | .error _ c => c

/-- The outcome of a step on a whole byte string, whatever it leaves unread. -/
def runOn (r : Reader ε α) (bytes : Bytes) : Except ε α :=
  match r (.ofBytes bytes) with
  | .ok a _ => .ok a
  | .error e _ => .error e

section Primitive

variable [EndOfBytes ε]

/-- Nothing is read when fewer than `count` bytes are left. -/
def bytes (count : Nat) : Reader ε Bytes := fun c =>
  match c.take? count with
  | some (taken, d) => .ok taken d
  | none => .error EndOfBytes.unexpectedEnd c

/-- A little-endian word of `width` bytes. -/
def word (width : Nat) : Reader ε Nat := LittleEndian.decode <$> bytes width

def u8 : Reader ε UInt8 := UInt8.ofNat <$> word 1
def u16 : Reader ε UInt16 := UInt16.ofNat <$> word 2
def u32 : Reader ε UInt32 := UInt32.ofNat <$> word 4
def u64 : Reader ε UInt64 := UInt64.ofNat <$> word 8

/-- A three-byte word in two's complement. -/
def s24 : Reader ε Int32 :=
  (fun n : Nat => Int32.ofInt (Int.bmod (n : Int) (Nat.pow 2 24))) <$> word 3

end Primitive

theorem map_eq_ok_iff {r : Reader ε α} {f : α → β} {c d : Cursor} {b : β} :
    (f <$> r) c = .ok b d ↔ ∃ a, r c = .ok a d ∧ f a = b := by
  simp only [Functor.map, EStateM.map]
  cases r c with
  | ok a e =>
    constructor
    · intro h
      cases h
      exact ⟨a, rfl, rfl⟩
    · rintro ⟨_, h, rfl⟩
      cases h
      rfl
  | error => simp

theorem bind_eq_ok_iff {r : Reader ε α} {f : α → Reader ε β} {c d : Cursor} {b : β} :
    (r >>= f) c = .ok b d ↔ ∃ a e, r c = .ok a e ∧ f a e = .ok b d := by
  simp only [Bind.bind, EStateM.bind]
  cases r c with
  | ok a e =>
    constructor
    · exact fun h => ⟨a, e, rfl, h⟩
    · rintro ⟨_, _, h, hf⟩
      cases h
      exact hf
  | error => simp

theorem bytes_eq_ok_iff [EndOfBytes ε] {count : Nat} {c d : Cursor} {taken : Bytes} :
    (bytes count : Reader ε Bytes) c = .ok taken d ↔
      taken.length = count ∧ c.rest = taken ++ d.rest ∧ d.offset = c.offset + count := by
  obtain ⟨offset, rest⟩ := c
  obtain ⟨offset', rest'⟩ := d
  simp only [bytes, Cursor.take?]
  constructor
  · intro h
    split at h
    · rename_i htake
      simp only [Option.ite_none_right_eq_some, Option.some.injEq, Prod.mk.injEq] at htake
      obtain ⟨hlen, rfl, rfl⟩ := htake
      simp only [EStateM.Result.ok.injEq, Cursor.mk.injEq] at h
      obtain ⟨rfl, rfl, rfl⟩ := h
      exact ⟨hlen, (List.take_append_drop count rest).symm, rfl⟩
    · cases h
  · rintro ⟨rfl, rfl, rfl⟩
    simp

theorem bytes_append [EndOfBytes ε] (offset : Nat) (taken rest : Bytes) :
    (bytes taken.length : Reader ε Bytes) ⟨offset, taken ++ rest⟩ =
      .ok taken ⟨offset + taken.length, rest⟩ := by
  simp [bytes, Cursor.take?]

theorem bytes_short [EndOfBytes ε] {count : Nat} {c : Cursor} (h : c.rest.length < count) :
    (bytes count : Reader ε Bytes) c = .error EndOfBytes.unexpectedEnd c := by
  have hne : (c.rest.take count).length ≠ count := by
    rw [List.length_take]
    omega
  simp only [bytes, Cursor.take?, hne, ↓reduceIte]

theorem bytes_of_le [EndOfBytes ε] {count : Nat} {c : Cursor} (h : count ≤ c.rest.length) :
    (bytes count : Reader ε Bytes) c =
      .ok (c.rest.take count) ⟨c.offset + count, c.rest.drop count⟩ := by
  have hlength : (c.rest.take count).length = count := List.length_take_of_le h
  simp only [bytes, Cursor.take?, hlength, ↓reduceIte]

@[simp] theorem u8_cons [EndOfBytes ε] (offset : Nat) (b : UInt8) (rest : Bytes) :
    (u8 : Reader ε UInt8) ⟨offset, b :: rest⟩ = .ok b ⟨offset + 1, rest⟩ := by
  have h := bytes_append (ε := ε) offset [b] rest
  simp only [List.length_cons, List.length_nil, List.cons_append, List.nil_append] at h
  simp [u8, word, Functor.map, EStateM.map, h, LittleEndian.decode]

/-- The same step `count` times, in order. -/
def times : Nat → Reader ε α → Reader ε (List α)
  | 0, _ => pure []
  | count + 1, r => do
    let head ← r
    let tail ← times count r
    pure (head :: tail)

/-- A step that is taken only if something is `present`; `absent` stands for what it would read. -/
def under (present : Bool) (absent : α) (r : Reader ε α) : Reader ε α :=
  if present then r else pure absent

/-- A step that never goes back and never jumps. -/
def Forward (r : Reader ε α) : Prop := ∀ c : Cursor, c.Reaches (cursorAfter (r c))

theorem Forward.pure (a : α) : Forward (Pure.pure a : Reader ε α) := Cursor.Reaches.refl

theorem Forward.throw (e : ε) : Forward (MonadExcept.throw e : Reader ε α) := Cursor.Reaches.refl

theorem Forward.get : Forward (MonadState.get : Reader ε Cursor) := Cursor.Reaches.refl

theorem Forward.bind {r : Reader ε α} {f : α → Reader ε β} (hr : Forward r)
    (hf : ∀ a, Forward (f a)) : Forward (r >>= f) := by
  intro c
  have h := hr c
  simp only [Bind.bind, EStateM.bind]
  cases hc : r c with
  | ok a d => exact (by simpa [hc, cursorAfter] using h : c.Reaches d).trans (hf a d)
  | error e d => simpa [hc, cursorAfter] using h

theorem Forward.map {r : Reader ε α} (f : α → β) (hr : Forward r) : Forward (f <$> r) := by
  intro c
  have h := hr c
  simp only [Functor.map, EStateM.map]
  cases hc : r c with
  | ok a d => simpa [hc, cursorAfter] using h
  | error e d => simpa [hc, cursorAfter] using h

theorem Forward.bytes [EndOfBytes ε] (count : Nat) : Forward (bytes count : Reader ε Bytes) := by
  intro c
  unfold Reader.bytes
  split
  · rename_i h
    exact Cursor.take?_reaches h
  · exact Cursor.Reaches.refl c

theorem Forward.word [EndOfBytes ε] (width : Nat) : Forward (word width : Reader ε Nat) :=
  (Forward.bytes width).map _

theorem Forward.u32 [EndOfBytes ε] : Forward (u32 : Reader ε UInt32) := (Forward.word 4).map _

theorem Forward.u8 [EndOfBytes ε] : Forward (u8 : Reader ε UInt8) := (Forward.word 1).map _

theorem Forward.s24 [EndOfBytes ε] : Forward (s24 : Reader ε Int32) := (Forward.word 3).map _

/-- What a step leaves is no longer than what it was given. -/
theorem Forward.length_le {r : Reader ε α} (hr : Forward r) {c d : Cursor} {a : α}
    (h : r c = .ok a d) : d.rest.length ≤ c.rest.length := by
  simpa [h, cursorAfter] using (hr c).length_le

theorem Forward.times {r : Reader ε α} (hr : Forward r) : ∀ count, Forward (times count r)
  | 0 => Forward.pure []
  | count + 1 => hr.bind fun _ => (Forward.times hr count).bind fun _ => Forward.pure _

end Reader
end PackedMovie
