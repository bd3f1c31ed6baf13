import PackedMovie.Text.Utf8

/-!
# Encoded text is read back

The bytes of a character are one piece, whatever follows them, so an encoded text falls into the
pieces of its characters, and both decoders give the text back.
-/
namespace PackedMovie.Utf8

/-- A number of at most 63 in the low bits of a continuation byte. -/
def tailByte (n : Nat) : UInt8 := UInt8.ofNat (n % 64 + 128)

theorem tailByte_toNat (n : Nat) : (tailByte n).toNat = n % 64 + 128 := by
  rw [tailByte, UInt8.toNat_ofNat']
  omega

theorem continuation_tailByte {value accepted n : Nat} {low high : UInt8}
    {ranges : List (UInt8 × UInt8)} {rest : Bytes}
    (hlow : low.toNat ≤ n % 64 + 128) (hhigh : n % 64 + 128 ≤ high.toNat) :
    continuation value accepted ((low, high) :: ranges) (tailByte n :: rest) =
      continuation (value * 64 + n % 64) (accepted + 1) ranges rest := by
  have hrange : low ≤ tailByte n ∧ tailByte n ≤ high := by
    rw [UInt8.le_iff_toNat_le, UInt8.le_iff_toNat_le, tailByte_toNat]
    exact ⟨hlow, hhigh⟩
  rw [continuation, if_pos hrange, tailByte_toNat, Nat.add_sub_cancel]

theorem continuation_anyTail {value accepted n : Nat} {ranges : List (UInt8 × UInt8)}
    {rest : Bytes} :
    continuation value accepted (anyTail :: ranges) (tailByte n :: rest) =
      continuation (value * 64 + n % 64) (accepted + 1) ranges rest :=
  continuation_tailByte (Nat.le_add_left 128 (n % 64))
    (Nat.add_le_add_right (Nat.le_of_lt_succ (Nat.mod_lt n (by decide))) 128)

/-- The first byte by its number. -/
theorem lead?_ofNat {n : Nat} (h : n < 256) :
    lead? (UInt8.ofNat n) =
      if n < 0x80 then some (n, [])
      else if n < 0xC2 then none
      else if n < 0xE0 then some (n - 0xC0, [anyTail])
      else if n = 0xE0 then some (0, [(0xA0, 0xBF), anyTail])
      else if n = 0xED then some (0xD, [(0x80, 0x9F), anyTail])
      else if n < 0xF0 then some (n - 0xE0, [anyTail, anyTail])
      else if n = 0xF0 then some (0, [(0x90, 0xBF), anyTail, anyTail])
      else if n < 0xF4 then some (n - 0xF0, [anyTail, anyTail, anyTail])
      else if n = 0xF4 then some (4, [(0x80, 0x8F), anyTail, anyTail])
      else none := by
  have hn : (UInt8.ofNat n).toNat = n := by
    rw [UInt8.toNat_ofNat']
    omega
  simp only [lead?, UInt8.lt_iff_toNat_lt, ← UInt8.toNat_inj, hn, UInt8.reduceToNat]

theorem firstPiece_ofNat {n : Nat} {rest : Bytes} {value : Nat} {ranges : List (UInt8 × UInt8)}
    (h : lead? (UInt8.ofNat n) = some (value, ranges)) :
    firstPiece (UInt8.ofNat n) rest = continuation value 1 ranges rest := by
  rw [firstPiece, h]

/-- The bytes of a character by the size of its number. -/
theorem utf8EncodeChar_eq (c : Char) :
    String.utf8EncodeChar c =
      if c.toNat ≤ 0x7F then [UInt8.ofNat c.toNat]
      else if c.toNat ≤ 0x7FF then [UInt8.ofNat (c.toNat / 64 % 32 + 0xC0), tailByte c.toNat]
      else if c.toNat ≤ 0xFFFF then
        [UInt8.ofNat (c.toNat / 4096 % 16 + 0xE0), tailByte (c.toNat / 64), tailByte c.toNat]
      else
        [UInt8.ofNat (c.toNat / 262144 % 8 + 0xF0), tailByte (c.toNat / 4096),
          tailByte (c.toNat / 64), tailByte c.toNat] := rfl

theorem toNat_valid (c : Char) :
    c.toNat < 0xD800 ∨ (0xDFFF < c.toNat ∧ c.toNat < 0x110000) := c.valid

section FirstPiece

variable {n : Nat} {rest : Bytes}

theorem firstPiece_short (h : n ≤ 0x7F) :
    firstPiece (UInt8.ofNat n) rest = (.char (Char.ofNat n), rest) := by
  have hlead : lead? (UInt8.ofNat n) = some (n, []) := by
    rw [lead?_ofNat (by omega), if_pos (by omega)]
  rw [firstPiece_ofNat hlead, continuation]

theorem firstPiece_two (hlow : 0x7F < n) (hhigh : n ≤ 0x7FF) :
    firstPiece (UInt8.ofNat (n / 64 % 32 + 0xC0)) (tailByte n :: rest) =
      (.char (Char.ofNat n), rest) := by
  have hlead : lead? (UInt8.ofNat (n / 64 % 32 + 0xC0)) = some (n / 64, [anyTail]) := by
    rw [lead?_ofNat (by omega), if_neg (by omega), if_neg (by omega), if_pos (by omega),
      show n / 64 % 32 + 0xC0 - 0xC0 = n / 64 by omega]
  rw [firstPiece_ofNat hlead, continuation_anyTail, continuation,
    show n / 64 * 64 + n % 64 = n by omega]

/-- The second of three bytes is held in a narrow range behind two of the first bytes. -/
theorem firstPiece_three (hlow : 0x7FF < n) (hhigh : n ≤ 0xFFFF)
    (hvalid : n < 0xD800 ∨ 0xDFFF < n) :
    firstPiece (UInt8.ofNat (n / 4096 % 16 + 0xE0)) (tailByte (n / 64) :: tailByte n :: rest) =
      (.char (Char.ofNat n), rest) := by
  have hvalue : (n / 4096 * 64 + n / 64 % 64) * 64 + n % 64 = n := by omega
  by_cases hfirst : n / 4096 = 0
  · have hlead : lead? (UInt8.ofNat (n / 4096 % 16 + 0xE0)) =
        some (0, [(0xA0, 0xBF), anyTail]) := by
      rw [lead?_ofNat (by omega), if_neg (by omega), if_neg (by omega), if_neg (by omega),
        if_pos (by omega)]
    rw [firstPiece_ofNat hlead, ← hfirst,
      continuation_tailByte (by simp only [UInt8.reduceToNat]; omega)
        (by simp only [UInt8.reduceToNat]; omega),
      continuation_anyTail, hvalue, continuation]
  · by_cases hsurrogate : n / 4096 = 0xD
    · have hlead : lead? (UInt8.ofNat (n / 4096 % 16 + 0xE0)) =
          some (0xD, [(0x80, 0x9F), anyTail]) := by
        rw [lead?_ofNat (by omega), if_neg (by omega), if_neg (by omega), if_neg (by omega),
          if_neg (by omega), if_pos (by omega)]
      rw [firstPiece_ofNat hlead, ← hsurrogate,
        continuation_tailByte (by simp only [UInt8.reduceToNat]; omega)
          (by simp only [UInt8.reduceToNat]; omega),
        continuation_anyTail, hvalue, continuation]
    · have hlead : lead? (UInt8.ofNat (n / 4096 % 16 + 0xE0)) =
          some (n / 4096, [anyTail, anyTail]) := by
        rw [lead?_ofNat (by omega), if_neg (by omega), if_neg (by omega), if_neg (by omega),
          if_neg (by omega), if_neg (by omega), if_pos (by omega),
          show n / 4096 % 16 + 0xE0 - 0xE0 = n / 4096 by omega]
      rw [firstPiece_ofNat hlead, continuation_anyTail, continuation_anyTail, hvalue, continuation]

theorem firstPiece_four (hlow : 0xFFFF < n) (hhigh : n < 0x110000) :
    firstPiece (UInt8.ofNat (n / 262144 % 8 + 0xF0))
        (tailByte (n / 4096) :: tailByte (n / 64) :: tailByte n :: rest) =
      (.char (Char.ofNat n), rest) := by
  have hvalue : ((n / 262144 * 64 + n / 4096 % 64) * 64 + n / 64 % 64) * 64 + n % 64 = n := by omega
  by_cases hfirst : n / 262144 = 0
  · have hlead : lead? (UInt8.ofNat (n / 262144 % 8 + 0xF0)) =
        some (0, [(0x90, 0xBF), anyTail, anyTail]) := by
      rw [lead?_ofNat (by omega), if_neg (by omega), if_neg (by omega), if_neg (by omega),
        if_neg (by omega), if_neg (by omega), if_neg (by omega), if_pos (by omega)]
    rw [firstPiece_ofNat hlead, ← hfirst,
      continuation_tailByte (by simp only [UInt8.reduceToNat]; omega)
        (by simp only [UInt8.reduceToNat]; omega),
      continuation_anyTail, continuation_anyTail, hvalue, continuation]
  · by_cases hlast : n / 262144 = 4
    · have hlead : lead? (UInt8.ofNat (n / 262144 % 8 + 0xF0)) =
          some (4, [(0x80, 0x8F), anyTail, anyTail]) := by
        rw [lead?_ofNat (by omega), if_neg (by omega), if_neg (by omega), if_neg (by omega),
          if_neg (by omega), if_neg (by omega), if_neg (by omega), if_neg (by omega),
          if_neg (by omega), if_pos (by omega)]
      rw [firstPiece_ofNat hlead, ← hlast,
        continuation_tailByte (by simp only [UInt8.reduceToNat]; omega)
          (by simp only [UInt8.reduceToNat]; omega),
        continuation_anyTail, continuation_anyTail, hvalue, continuation]
    · have hlead : lead? (UInt8.ofNat (n / 262144 % 8 + 0xF0)) =
          some (n / 262144, [anyTail, anyTail, anyTail]) := by
        rw [lead?_ofNat (by omega), if_neg (by omega), if_neg (by omega), if_neg (by omega),
          if_neg (by omega), if_neg (by omega), if_neg (by omega), if_neg (by omega),
          if_pos (by omega), show n / 262144 % 8 + 0xF0 - 0xF0 = n / 262144 by omega]
      rw [firstPiece_ofNat hlead, continuation_anyTail, continuation_anyTail, continuation_anyTail,
        hvalue, continuation]

end FirstPiece

theorem pieces_cons (b : UInt8) (rest : Bytes) :
    pieces (b :: rest) = (firstPiece b rest).1 :: pieces (firstPiece b rest).2 := by
  rw [pieces]

theorem pieces_utf8EncodeChar (c : Char) (rest : Bytes) :
    pieces (String.utf8EncodeChar c ++ rest) = .char c :: pieces rest := by
  have hvalid := toNat_valid c
  rw [utf8EncodeChar_eq]
  split
  · rw [List.singleton_append, pieces_cons, firstPiece_short (by assumption), Char.ofNat_toNat]
  · split
    · rw [List.cons_append, List.singleton_append, pieces_cons,
        firstPiece_two (by omega) (by assumption),
        Char.ofNat_toNat]
    · split
      · rw [List.cons_append, List.cons_append, List.singleton_append, pieces_cons,
          firstPiece_three (by omega) (by assumption) (by omega), Char.ofNat_toNat]
      · rw [List.cons_append, List.cons_append, List.cons_append, List.singleton_append,
          pieces_cons,
          firstPiece_four (by omega) (by omega), Char.ofNat_toNat]

theorem pieces_encode (text : String) : pieces (encode text) = text.toList.map Piece.char := by
  have hchars (cs : List Char) : pieces (cs.flatMap String.utf8EncodeChar) = cs.map Piece.char := by
    induction cs with
    | nil => rw [List.flatMap_nil, pieces, List.map_nil]
    | cons c cs ih => rw [List.flatMap_cons, pieces_utf8EncodeChar, ih, List.map_cons]
  exact hchars text.toList

theorem charsOf_map_char (validUpTo : Nat) (cs : List Char) :
    charsOf validUpTo (cs.map Piece.char) = .ok cs := by
  induction cs generalizing validUpTo with
  | nil => rfl
  | cons c cs ih => simp [charsOf, ih, Functor.map, Except.map]

theorem decode_encode (text : String) : decode (encode text) = .ok text := by
  rw [decode, pieces_encode, charsOf_map_char]
  simp [Functor.map, Except.map]

/-- Bytes below 0x80 are the characters of these numbers. -/
theorem exists_encode_of_ascii {bytes : Bytes} (h : ∀ b ∈ bytes, b < 0x80) :
    ∃ text, encode text = bytes := by
  refine ⟨String.ofList (bytes.map Char.ofUInt8), ?_⟩
  rw [encode, String.toList_ofList]
  induction bytes with
  | nil => rfl
  | cons b bytes ih =>
    have hb : b.toNat < 128 := UInt8.lt_iff_toNat_lt.1 (h b List.mem_cons_self)
    have hchar : (Char.ofUInt8 b).toNat = b.toNat := UInt8.toNat_toUInt32 b
    have hrest := ih fun other hother => h other (List.mem_cons_of_mem b hother)
    rw [List.map_cons, List.flatMap_cons, hrest, utf8EncodeChar_eq, hchar, if_pos (by omega),
      UInt8.ofNat_toNat]
    rfl

theorem encode_ne_nil {text : String} (h : text ≠ "") : encode text ≠ [] := by
  intro hnil
  have hdecode := decode_encode text
  rw [hnil, ← encode_empty, decode_encode] at hdecode
  cases hdecode
  exact h rfl

theorem decodeLossy_encode (text : String) : decodeLossy (encode text) = text := by
  have hchars : Piece.charOrReplacement ∘ Piece.char = id := rfl
  rw [decodeLossy, pieces_encode, List.map_map, hchars, List.map_id, String.ofList_toList]

/-! ### NUL -/

theorem ne_zero_of_mem_utf8EncodeChar {c : Char} (hc : c ≠ '\x00') {b : UInt8}
    (hb : b ∈ String.utf8EncodeChar c) : b ≠ 0 := by
  have hpos : c.toNat ≠ 0 := by
    intro h
    apply hc
    exact Char.toNat_inj.1 h
  rintro rfl
  have hbyte (n : Nat) (h : 0 = UInt8.ofNat n) : n % 256 = 0 := by
    have hn := congrArg UInt8.toNat h
    rw [UInt8.toNat_ofNat'] at hn
    exact hn.symm
  have htail (n : Nat) : 0 ≠ tailByte n := by
    intro h
    have hn := congrArg UInt8.toNat h
    rw [tailByte_toNat, UInt8.toNat_zero] at hn
    omega
  rw [utf8EncodeChar_eq] at hb
  split at hb
  · have hn := hbyte _ (List.mem_singleton.1 hb)
    omega
  split at hb
  · rcases List.mem_cons.1 hb with h | hb
    · have hn := hbyte _ h
      omega
    · simp [htail] at hb
  split at hb
  · rcases List.mem_cons.1 hb with h | hb
    · have hn := hbyte _ h
      omega
    · simp [htail] at hb
  · rcases List.mem_cons.1 hb with h | hb
    · have hn := hbyte _ h
      omega
    · simp [htail] at hb

/-- Only the character NUL is encoded with a zero byte. -/
theorem ne_zero_of_mem_encode {text : String} (h : '\x00' ∉ text.toList) {b : UInt8}
    (hb : b ∈ encode text) : b ≠ 0 := by
  obtain ⟨c, hc, hb⟩ := List.mem_flatMap.1 hb
  apply ne_zero_of_mem_utf8EncodeChar _ hb
  rintro rfl
  exact h hc

end PackedMovie.Utf8
