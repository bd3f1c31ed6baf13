import PackedMovie.Proofs.Bytes.Local
import PackedMovie.Proofs.Swf.Header

/-!
# Where a header ends

A header that is read is a front of the file and a front of its body, and with both it can stand
before any tags. It does not matter which bytes are behind the first one, as long as they expand to a
body that begins with the second one.

Main statement: `Header.read_split`.
-/
namespace PackedMovie.Swf

open PackedMovie.Reader (Local Reads)

/-! ### Bit fields -/

namespace Bits

/-- Bits in front that fit into some of the bytes are bits of these. -/
theorem exists_padding {taken rest : Bytes} {used left : List Bool}
    (h : ofBytes (taken ++ rest) = used ++ left) (hfit : used.length ≤ 8 * taken.length) :
    ∃ padding, used ++ padding = ofBytes taken := by
  have hused : used <+: ofBytes (taken ++ rest) := ⟨left, h.symm⟩
  have htaken : ofBytes taken <+: ofBytes (taken ++ rest) :=
    ⟨ofBytes rest, (ofBytes_append taken rest).symm⟩
  exact List.prefix_of_prefix_length_le hused htaken (by rwa [length_ofBytes])

end Bits

/-- A reader of bits that takes some bits, and would take them for the same value anywhere. -/
def BitLocal {α : Type} (r : BitReader α) : Prop :=
  ∀ c d a, r c = .ok a d →
    ∃ used, c.rest = used ++ d.rest ∧ d.read = c.read + used.length ∧ BitReads r used a

namespace BitLocal

variable {α β : Type}

theorem pure (a : α) : BitLocal (Pure.pure a : BitReader α) := by
  intro c d b h
  cases h
  exact ⟨[], rfl, rfl, fun _ _ => rfl⟩

theorem bind {r : BitReader α} {f : α → BitReader β} (hr : BitLocal r) (hf : ∀ a, BitLocal (f a)) :
    BitLocal (r >>= f) := by
  intro c d b h
  simp only [Bind.bind, EStateM.bind] at h
  cases hr' : r c with
  | error e e' =>
    rw [hr'] at h
    cases h
  | ok a e =>
    rw [hr'] at h
    obtain ⟨front, hfront, hread, hreads⟩ := hr c e a hr'
    obtain ⟨back, hback, hread', hreads'⟩ := hf a e d b h
    refine ⟨front ++ back, ?_, ?_, hreads.bind hreads'⟩
    · rw [hfront, hback, List.append_assoc]
    · rw [hread', hread, List.length_append, Nat.add_assoc]

theorem map {r : BitReader α} (f : α → β) (hr : BitLocal r) : BitLocal (f <$> r) := by
  rw [map_eq_pure_bind]
  exact hr.bind fun a => BitLocal.pure (f a)

theorem number (width : Nat) : BitLocal (BitReader.number width) := by
  intro c d n h
  simp only [BitReader.number] at h
  split at h
  · rename_i hlength
    cases h
    refine ⟨c.rest.take width, (List.take_append_drop width c.rest).symm, by rw [hlength], ?_⟩
    intro read rest
    have htake : (c.rest.take width ++ rest).take width = c.rest.take width :=
      List.take_left' hlength
    have hdrop : (c.rest.take width ++ rest).drop width = rest := List.drop_left' hlength
    unfold BitReader.number
    simp only [htake, hdrop, hlength, ↓reduceIte]
  · cases h

theorem signed (width : Nat) : BitLocal (BitReader.signed width) := (number width).map _

end BitLocal

namespace Rectangle

theorem bitLocal_read : BitLocal readBits :=
  (BitLocal.number 5).bind fun width => (BitLocal.signed width).bind fun _ =>
    (BitLocal.signed width).bind fun _ => (BitLocal.signed width).bind fun _ =>
      (BitLocal.signed width).bind fun _ => BitLocal.pure _

/-- Once the fields are read, the bytes that they begin are taken. -/
theorem read_of_bits {c : Cursor} {b : BitCursor} {r : Rectangle}
    (h : readBits (.ofBytes c.rest) = .ok r b) :
    Rectangle.read c = (PackedMovie.Reader.bytes b.byteLength >>= fun _ => pure r) c := by
  unfold Rectangle.read
  rw [PackedMovie.Reader.get_bind_eq, h]

theorem read_of_error {c : Cursor} {b : BitCursor} {e : Error}
    (h : readBits (.ofBytes c.rest) = .error e b) : Rectangle.read c = .error e c := by
  unfold Rectangle.read
  rw [PackedMovie.Reader.get_bind_eq, h]
  rfl

theorem local_read : Local Rectangle.read where
  placeless offset offset' rest := by
    cases h : readBits (.ofBytes rest) with
    | ok r b =>
      rw [read_of_bits h, read_of_bits h]
      exact ((Local.bytes b.byteLength).bind fun _ => Local.pure r).placeless _ _ _
    | error e b =>
      rw [read_of_error h, read_of_error h]
      rfl
  reads {c d r} h := by
    cases hbits : readBits (.ofBytes c.rest) with
    | error e b =>
      rw [read_of_error hbits] at h
      cases h
    | ok r' b =>
      rw [read_of_bits hbits] at h
      obtain ⟨taken, e, htaken, hpure⟩ := PackedMovie.Reader.bind_eq_ok_iff.1 h
      cases hpure
      obtain ⟨hlength, hrest, -⟩ := PackedMovie.Reader.bytes_eq_ok_iff.1 htaken
      obtain ⟨used, hused, hread, hreads⟩ := bitLocal_read _ _ _ hbits
      have hbytes : b.byteLength = (used.length + 7) / 8 := by
        rw [BitCursor.byteLength, hread]
        simp [BitCursor.ofBytes]
      have hfit : used.length ≤ 8 * taken.length := by omega
      -- The fields may end inside a byte; the rest of its bits is taken with them.
      obtain ⟨padding, hpadding⟩ := Bits.exists_padding (by rwa [← hrest]) hfit
      refine ⟨taken, hrest, fun offset rest => ?_⟩
      have hagain : readBits (.ofBytes (taken ++ rest)) =
          .ok r ⟨used.length, padding ++ Bits.ofBytes rest⟩ := by
        rw [BitCursor.ofBytes, Bits.ofBytes_append, ← hpadding, List.append_assoc, hreads,
          Nat.zero_add]
      have hsame :
          BitCursor.byteLength ⟨used.length, padding ++ Bits.ofBytes rest⟩ = taken.length := by
        rw [hlength, hbytes, BitCursor.byteLength]
      rw [read_of_bits hagain, hsame]
      exact (Reads.bytes taken).bind_pure offset rest

end Rectangle

namespace Header

theorem local_readPreamble : Local readPreamble := by
  refine (Local.bytes 3).bind fun bytes => ?_
  split
  · split
    · exact Local.throw _
    · exact Local.u8.bind fun _ => Local.u32.bind fun _ => Local.pure _
  · exact Local.throw _

theorem local_readFrames : Local readFrames :=
  Rectangle.local_read.bind fun _ => Local.u16.bind fun _ => Local.u16.bind fun _ => Local.pure _

/-- What was read as a header can stand before any tags. -/
theorem read_split [Codec] {file data : Bytes} {header : Header}
    (h : Header.read file = .ok (header, data)) :
    ∃ front frames packed, file = front ++ packed ∧
      expand header.compression packed = .ok (frames ++ data) ∧
      ∀ other tags, expand header.compression other = .ok (frames ++ tags) →
        Header.read (front ++ other) = .ok (header, tags) := by
  unfold Header.read at h
  split at h
  · cases h
  · rename_i preamble c hpreamble
    split at h
    · cases h
    · rename_i body hexpand
      split at h
      · cases h
      · rename_i size rate count d hframes
        cases h
        obtain ⟨front, hfront, hreads⟩ := local_readPreamble.reads hpreamble
        obtain ⟨frames, hbody, hreads'⟩ := local_readFrames.reads hframes
        refine ⟨front, frames, c.rest, hfront, ?_, ?_⟩
        · rw [hexpand]
          exact congrArg _ hbody
        · intro other tags hother
          have hfile := hreads 0 other
          have hrest := hreads' 0 tags
          unfold Header.read
          rw [Cursor.ofBytes, hfile]
          simp only at hother ⊢
          rw [hother]
          simp only
          rw [Cursor.ofBytes, hrest]

end Header
end PackedMovie.Swf
