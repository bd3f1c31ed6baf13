import PackedMovie.Bytes.LittleEndian

/-!
# UTF-8

Decoding cuts a byte string into pieces: well-formed characters, maximal malformed runs, and a
sequence cut off by the end. The strict decoder refuses at the first piece that is no character; the
lossy one puts the replacement character in its place.
-/
namespace PackedMovie.Utf8

def encode (text : String) : Bytes := text.toList.flatMap String.utf8EncodeChar

@[simp] theorem encode_empty : encode "" = [] := rfl

/-- Where a byte string stops being UTF-8: after `validUpTo` good bytes comes a malformed run of the
given length, or, with no length, a sequence that the end cuts off. -/
structure Malformed where
  validUpTo : Nat
  length : Option Nat
  deriving DecidableEq, Repr

def Malformed.message (m : Malformed) : String :=
  match m.length with
  | some n => s!"invalid utf-8 sequence of {n} bytes from index {m.validUpTo}"
  | none => s!"incomplete utf-8 byte sequence from index {m.validUpTo}"

inductive Piece where
  | char (c : Char)
  | malformed (length : Nat)
  | truncated
  deriving DecidableEq, Repr

/-- Any continuation byte. -/
def anyTail : UInt8 × UInt8 := (0x80, 0xBF)

/-- The value bits of a first byte, and for each byte owed after it the range it has to lie in. The
narrow ranges keep out overlong forms, surrogates and values above the last code point. -/
def lead? (b : UInt8) : Option (Nat × List (UInt8 × UInt8)) :=
  if b < 0x80 then some (b.toNat, [])
  else if b < 0xC2 then none
  else if b < 0xE0 then some (b.toNat - 0xC0, [anyTail])
  else if b = 0xE0 then some (0, [(0xA0, 0xBF), anyTail])
  else if b = 0xED then some (0xD, [(0x80, 0x9F), anyTail])
  else if b < 0xF0 then some (b.toNat - 0xE0, [anyTail, anyTail])
  else if b = 0xF0 then some (0, [(0x90, 0xBF), anyTail, anyTail])
  else if b < 0xF4 then some (b.toNat - 0xF0, [anyTail, anyTail, anyTail])
  else if b = 0xF4 then some (4, [(0x80, 0x8F), anyTail, anyTail])
  else none

/-- The piece begun by `accepted` bytes that hold `value`, and what follows it. -/
def continuation (value accepted : Nat) : List (UInt8 × UInt8) → Bytes → Piece × Bytes
  | [], rest => (.char (Char.ofNat value), rest)
  | _ :: _, [] => (.truncated, [])
  | (low, high) :: ranges, b :: rest =>
    if low ≤ b ∧ b ≤ high then
      continuation (value * 64 + (b.toNat - 0x80)) (accepted + 1) ranges rest
    else (.malformed accepted, b :: rest)

def firstPiece (b : UInt8) (rest : Bytes) : Piece × Bytes :=
  match lead? b with
  | none => (.malformed 1, rest)
  | some (value, ranges) => continuation value 1 ranges rest

theorem continuation_length_le (value accepted : Nat) (ranges : List (UInt8 × UInt8))
    (rest : Bytes) : (continuation value accepted ranges rest).2.length ≤ rest.length := by
  fun_induction continuation value accepted ranges rest with
  | case1 => exact Nat.le_refl _
  | case2 => exact Nat.le_refl _
  | case3 _ _ _ _ _ _ rest _ ih => exact Nat.le_trans ih (Nat.le_succ rest.length)
  | case4 => exact Nat.le_refl _

theorem firstPiece_length_le (b : UInt8) (rest : Bytes) :
    (firstPiece b rest).2.length ≤ rest.length := by
  unfold firstPiece
  split
  · exact Nat.le_refl _
  · exact continuation_length_le ..

def pieces : Bytes → List Piece
  | [] => []
  | b :: rest => (firstPiece b rest).1 :: pieces (firstPiece b rest).2
termination_by bytes => bytes.length
decreasing_by exact Nat.lt_succ_of_le (firstPiece_length_le b rest)

/-- The characters of all pieces, after `validUpTo` bytes that were already good. -/
def charsOf (validUpTo : Nat) : List Piece → Except Malformed (List Char)
  | [] => .ok []
  | .char c :: rest => (c :: ·) <$> charsOf (validUpTo + c.utf8Size) rest
  | .malformed n :: _ => .error ⟨validUpTo, some n⟩
  | .truncated :: _ => .error ⟨validUpTo, none⟩

def decode (bytes : Bytes) : Except Malformed String := String.ofList <$> charsOf 0 (pieces bytes)

def Piece.charOrReplacement : Piece → Char
  | .char c => c
  | _ => '\uFFFD'

def decodeLossy (bytes : Bytes) : String :=
  String.ofList ((pieces bytes).map Piece.charOrReplacement)

end PackedMovie.Utf8
