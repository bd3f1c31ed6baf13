import PackedMovie.Proofs.Text.Utf8

/-!
# What decoding makes of bytes

A piece that is a character takes just the bytes that encode it, and any other piece takes at least
one. So what the strict decoder accepts is the encoding of what it gives, and the lossy decoder, which
puts three bytes in the place of such a piece, makes a text of no more than three times the bytes.

Main statements: `encode_of_decode`, `length_encode_decodeLossy_le`.
-/
namespace PackedMovie.Utf8

/-! ### Characters -/

/-- How many bytes follow a first byte, and the range of the first of these. -/
theorem lead?_eq_some {b : UInt8} {value : Nat} {ranges : List (UInt8 × UInt8)}
    (h : lead? b = some (value, ranges)) :
    (b.toNat < 0x80 ∧ value = b.toNat ∧ ranges = []) ∨
    (0xC2 ≤ b.toNat ∧ b.toNat < 0xE0 ∧ value = b.toNat - 0xC0 ∧ ranges = [anyTail]) ∨
    (0xE0 ≤ b.toNat ∧ b.toNat < 0xF0 ∧ value = b.toNat - 0xE0 ∧
      ∃ low high, ranges = [(low, high), anyTail] ∧ 0x80 ≤ low.toNat ∧ high.toNat ≤ 0xBF ∧
        (b.toNat = 0xE0 → 0xA0 ≤ low.toNat) ∧ (b.toNat = 0xED → high.toNat ≤ 0x9F)) ∨
    (0xF0 ≤ b.toNat ∧ b.toNat < 0xF5 ∧ value = b.toNat - 0xF0 ∧
      ∃ low high, ranges = [(low, high), anyTail, anyTail] ∧ 0x80 ≤ low.toNat ∧
        high.toNat ≤ 0xBF ∧ (b.toNat = 0xF0 → 0x90 ≤ low.toNat) ∧
        (b.toNat = 0xF4 → high.toNat ≤ 0x8F)) := by
  have hlead := lead?_ofNat b.toNat_lt
  rw [UInt8.ofNat_toNat, h] at hlead
  have hpair {v : Nat} {rs : List (UInt8 × UInt8)} (heq : some (value, ranges) = some (v, rs)) :
      value = v ∧ ranges = rs := Prod.mk.inj (Option.some.inj heq)
  split at hlead
  · exact .inl ⟨by omega, hpair hlead⟩
  split at hlead
  · cases hlead
  split at hlead
  · exact .inr (.inl ⟨by omega, by omega, hpair hlead⟩)
  split at hlead
  · obtain ⟨hvalue, hranges⟩ := hpair hlead
    exact .inr (.inr (.inl ⟨by omega, by omega, by omega, _, _, hranges, by decide, by decide,
      fun _ => by decide, by omega⟩))
  split at hlead
  · obtain ⟨hvalue, hranges⟩ := hpair hlead
    exact .inr (.inr (.inl ⟨by omega, by omega, by omega, _, _, hranges, by decide, by decide,
      by omega, fun _ => by decide⟩))
  split at hlead
  · obtain ⟨hvalue, hranges⟩ := hpair hlead
    exact .inr (.inr (.inl ⟨by omega, by omega, by omega, _, _, hranges, by decide, by decide,
      by omega, by omega⟩))
  split at hlead
  · obtain ⟨hvalue, hranges⟩ := hpair hlead
    exact .inr (.inr (.inr ⟨by omega, by omega, by omega, _, _, hranges, by decide, by decide,
      fun _ => by decide, by omega⟩))
  split at hlead
  · obtain ⟨hvalue, hranges⟩ := hpair hlead
    exact .inr (.inr (.inr ⟨by omega, by omega, by omega, _, _, hranges, by decide, by decide,
      by omega, by omega⟩))
  split at hlead
  · obtain ⟨hvalue, hranges⟩ := hpair hlead
    exact .inr (.inr (.inr ⟨by omega, by omega, by omega, _, _, hranges, by decide, by decide,
      by omega, fun _ => by decide⟩))
  · cases hlead

section

variable {b low high : UInt8} {value accepted n : Nat} {ranges : List (UInt8 × UInt8)}
  {rest behind : Bytes} {c : Char}

/-- A character that still owes bytes takes the next one, which lies in its range. -/
theorem continuation_eq_char
    (h : continuation value accepted ((low, high) :: ranges) rest = (.char c, behind)) :
    ∃ b more, rest = b :: more ∧ low.toNat ≤ b.toNat ∧ b.toNat ≤ high.toNat ∧
      continuation (value * 64 + (b.toNat - 0x80)) (accepted + 1) ranges more =
        (.char c, behind) := by
  cases rest with
  | nil => cases h
  | cons b more =>
    rw [continuation] at h
    split at h
    · rename_i hrange
      rw [UInt8.le_iff_toNat_le, UInt8.le_iff_toNat_le] at hrange
      exact ⟨b, more, rfl, hrange.1, hrange.2, h⟩
    · cases h

theorem continuation_anyTail_eq_char
    (h : continuation value accepted (anyTail :: ranges) rest = (.char c, behind)) :
    ∃ b more, rest = b :: more ∧ 0x80 ≤ b.toNat ∧ b.toNat ≤ 0xBF ∧
      continuation (value * 64 + (b.toNat - 0x80)) (accepted + 1) ranges more =
        (.char c, behind) := continuation_eq_char h

/-- A character that owes no more bytes has the number that they held. -/
theorem continuation_nil_eq_char (h : continuation value accepted [] rest = (.char c, behind))
    (hvalid : value < 0xD800 ∨ 0xDFFF < value ∧ value < 0x110000) :
    c.toNat = value ∧ rest = behind := by
  rw [continuation] at h
  obtain ⟨hchar, hrest⟩ := Prod.mk.inj h
  have hvalid : value.isValidChar := hvalid
  have hnumber : (Char.ofNat value).toNat = value := by
    rw [Char.ofNat, dif_pos hvalid]
    rfl
  exact ⟨by rw [← Piece.char.inj hchar, hnumber], hrest⟩

theorem ofNat_eq (h : b.toNat = n) : UInt8.ofNat n = b := by
  rw [← h, UInt8.ofNat_toNat]

/-- A first piece that is a character takes its encoding. -/
theorem firstPiece_eq_char (h : firstPiece b rest = (.char c, behind)) :
    b :: rest = String.utf8EncodeChar c ++ behind := by
  have htail {t : UInt8} {n : Nat} (ht : t.toNat = n % 64 + 128) : tailByte n = t := ofNat_eq ht
  rw [firstPiece] at h
  split at h
  · cases h
  · rename_i value ranges hlead
    rcases lead?_eq_some hlead with ⟨hb, hvalue, hranges⟩ | ⟨hb, hb', hvalue, hranges⟩ |
      ⟨hb, hb', hvalue, low, high, hranges, hlow', hhigh', hfirst, hlast⟩ |
      ⟨hb, hb', hvalue, low, high, hranges, hlow', hhigh', hfirst, hlast⟩ <;>
      rw [hvalue, hranges] at h
    · obtain ⟨hc, rfl⟩ := continuation_nil_eq_char h (by omega)
      rw [utf8EncodeChar_eq, hc, if_pos (by omega), UInt8.ofNat_toNat]
      rfl
    · obtain ⟨t, more, rfl, ht, ht', h⟩ := continuation_anyTail_eq_char h
      obtain ⟨hc, rfl⟩ := continuation_nil_eq_char h (by omega)
      rw [utf8EncodeChar_eq, hc, if_neg (by omega), if_pos (by omega), ofNat_eq (b := b) (by omega),
        htail (t := t) (by omega)]
      rfl
    · obtain ⟨t, more, rfl, ht, ht', h⟩ := continuation_eq_char h
      obtain ⟨u, more, rfl, hu, hu', h⟩ := continuation_anyTail_eq_char h
      obtain ⟨hc, rfl⟩ := continuation_nil_eq_char h (by omega)
      rw [utf8EncodeChar_eq, hc, if_neg (by omega), if_neg (by omega), if_pos (by omega),
        ofNat_eq (b := b) (by omega), htail (t := t) (by omega), htail (t := u) (by omega)]
      rfl
    · obtain ⟨t, more, rfl, ht, ht', h⟩ := continuation_eq_char h
      obtain ⟨u, more, rfl, hu, hu', h⟩ := continuation_anyTail_eq_char h
      obtain ⟨v, more, rfl, hv, hv', h⟩ := continuation_anyTail_eq_char h
      obtain ⟨hc, rfl⟩ := continuation_nil_eq_char h (by omega)
      rw [utf8EncodeChar_eq, hc, if_neg (by omega), if_neg (by omega), if_neg (by omega),
        ofNat_eq (b := b) (by omega), htail (t := t) (by omega), htail (t := u) (by omega),
        htail (t := v) (by omega)]
      rfl

/-- Whatever the first piece is, three times its bytes hold what it is replaced by. -/
theorem length_firstPiece_le (b : UInt8) (rest : Bytes) :
    (String.utf8EncodeChar (firstPiece b rest).1.charOrReplacement).length +
      3 * (firstPiece b rest).2.length ≤ 3 * (b :: rest).length := by
  have hshorter := firstPiece_length_le b rest
  have hreplaced : (String.utf8EncodeChar '\uFFFD').length = 3 := by decide
  cases hpiece : (firstPiece b rest).1 with
  | char c =>
    have hfirst : firstPiece b rest = (.char c, (firstPiece b rest).2) := Prod.ext hpiece rfl
    have htaken := congrArg List.length (firstPiece_eq_char hfirst)
    rw [List.length_append] at htaken
    simp only [Piece.charOrReplacement]
    omega
  | malformed n =>
    rw [List.length_cons]
    simp only [Piece.charOrReplacement, hreplaced]
    omega
  | truncated =>
    rw [List.length_cons]
    simp only [Piece.charOrReplacement, hreplaced]
    omega

end

/-! ### Whole texts -/

/-- Bytes that fall into characters only are the encoding of these. -/
theorem flatMap_of_pieces {raw : Bytes} {cs : List Char} (h : pieces raw = cs.map Piece.char) :
    cs.flatMap String.utf8EncodeChar = raw := by
  induction cs generalizing raw with
  | nil =>
    cases raw with
    | nil => rfl
    | cons b rest =>
      rw [pieces_cons] at h
      cases h
  | cons c cs ih =>
    cases raw with
    | nil =>
      rw [pieces] at h
      cases h
    | cons b rest =>
      rw [pieces_cons, List.map_cons] at h
      obtain ⟨hpiece, hrest⟩ := List.cons.inj h
      rw [List.flatMap_cons, ih hrest, ← firstPiece_eq_char (Prod.ext hpiece rfl)]

theorem eq_map_of_charsOf {validUpTo : Nat} {ps : List Piece} {cs : List Char}
    (h : charsOf validUpTo ps = .ok cs) : ps = cs.map Piece.char := by
  induction ps generalizing validUpTo cs with
  | nil =>
    cases h
    rfl
  | cons piece ps ih =>
    cases piece with
    | char c =>
      rw [charsOf] at h
      cases hrest : charsOf (validUpTo + c.utf8Size) ps with
      | error e =>
        rw [hrest] at h
        cases h
      | ok rest =>
        rw [hrest] at h
        cases h
        rw [ih hrest, List.map_cons]
    | malformed n => cases h
    | truncated => cases h

/-- What is accepted is the encoding of what it is taken for. -/
theorem encode_of_decode {raw : Bytes} {text : String} (h : decode raw = .ok text) :
    encode text = raw := by
  rw [decode] at h
  cases hchars : charsOf 0 (pieces raw) with
  | error e =>
    rw [hchars] at h
    cases h
  | ok cs =>
    rw [hchars] at h
    cases h
    rw [encode, String.toList_ofList]
    exact flatMap_of_pieces (eq_map_of_charsOf hchars)

theorem length_encode_decodeLossy_le (raw : Bytes) :
    (encode (decodeLossy raw)).length ≤ 3 * raw.length := by
  have hpieces : (((pieces raw).map Piece.charOrReplacement).flatMap
      String.utf8EncodeChar).length ≤ 3 * raw.length := by
    fun_induction pieces raw with
    | case1 => exact Nat.le_refl 0
    | case2 b rest ih =>
      have hfirst := length_firstPiece_le b rest
      rw [List.map_cons, List.flatMap_cons, List.length_append]
      omega
  rwa [encode, decodeLossy, String.toList_ofList]

end PackedMovie.Utf8
