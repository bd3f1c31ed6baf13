import Mathlib.Order.Bounds.Defs
import PackedMovie.Proofs.Swf.Header
import PackedMovie.Zlib.Codec

/-!
# Frames that a header can hold

The fields of a frame are at most 31 bits wide, so coordinates from -2^30 up to 2^30 come back from a
written header and others do not. For these the fields are as narrow as they can be.

Main statement: `Header.read_written`.
-/
namespace PackedMovie.Swf

namespace Bits

/-! ### What a field holds -/

/-- A number lies in the range of a signed field. A field of no bits holds zero only. -/
def Holds (width : Nat) (n : Int32) : Prop :=
  -(Nat.pow 2 width : Int) ≤ n.toInt * 2 ∧ n.toInt * 2 < Nat.pow 2 width

theorem Holds.mono {narrow wide : Nat} {n : Int32} (h : Holds narrow n) (hle : narrow ≤ wide) :
    Holds wide n := by
  have hpow : Nat.pow 2 narrow ≤ Nat.pow 2 wide := Nat.pow_le_pow_right Nat.two_pos hle
  obtain ⟨hlow, hhigh⟩ := h
  constructor <;> omega

theorem bmod_range {range : Nat} (h : 0 < range) (n : Int) :
    -(range : Int) ≤ Int.bmod n range * 2 ∧ Int.bmod n range * 2 < range := by
  have hlow : -((range : Int) / 2) ≤ Int.bmod n range := Int.le_bmod h
  have hhigh : Int.bmod n range ≤ ((range : Int) - 1) / 2 := Int.bmod_le h
  constructor <;> omega

theorem bmod_eq_self_iff {width : Nat} {n : Int32} :
    Int.bmod n.toInt (Nat.pow 2 width) = n.toInt ↔ Holds width n := by
  constructor
  · intro h
    have hpos : 0 < Nat.pow 2 width := Nat.pow_pos Nat.two_pos
    have hrange := bmod_range hpos n.toInt
    rwa [h] at hrange
  · rintro ⟨hlow, hhigh⟩
    exact Int.bmod_eq_of_le_mul_two hlow hhigh

/-- A field narrower than a word keeps a number up to multiples of its range. -/
theorem toInt_kept {width : Nat} (h : width < 32) (n : Int32) :
    (kept width n).toInt = Int.bmod n.toInt (Nat.pow 2 width) := by
  have hpos : 0 < Nat.pow 2 width := Nat.pow_pos Nat.two_pos
  have hdvd : Nat.pow 2 width ∣ Int32.size := Nat.pow_dvd_pow 2 (Nat.le_of_lt h)
  have hle : Nat.pow 2 width ≤ Int32.size := Nat.le_of_dvd (by decide) hdvd
  have hword : n.toInt = Int.bmod n.toUInt32.toNat Int32.size :=
    BitVec.toInt_eq_toNat_bmod n.toBitVec
  have hfield : (kept width n).toInt =
      Int.bmod (Int.bmod n.toUInt32.toNat (Nat.pow 2 width)) Int32.size := by
    unfold kept
    simp only
    rw [if_pos h, Int32.toInt_ofInt, Int.natCast_emod, Int.emod_bmod]
  -- What is in the field fits into a word, which cuts nothing more off.
  obtain ⟨hlow, hhigh⟩ := bmod_range hpos n.toUInt32.toNat
  rw [hfield, hword, Int.bmod_bmod_of_dvd hdvd]
  apply Int.bmod_eq_of_le_mul_two
  · omega
  · omega

theorem kept_eq_self_iff {width : Nat} (h : width < 32) {n : Int32} :
    kept width n = n ↔ Holds width n := by
  rw [← Int32.toInt_inj, toInt_kept h, bmod_eq_self_iff]

end Bits

namespace Rectangle

/-! ### How wide fields have to be -/

theorem bitLength_le_iff {n width : Nat} : bitLength n ≤ width ↔ n < Nat.pow 2 width := by
  unfold bitLength
  split
  · rename_i hzero
    subst hzero
    exact iff_of_true (Nat.zero_le width) (Nat.pow_pos Nat.two_pos)
  · rename_i hpos
    exact Nat.log2_lt hpos

theorem toNat_of_nonneg {n : Int32} (h : 0 ≤ n.toInt) : (n.toUInt32.toNat : Int) = n.toInt := by
  rw [Int32.toNat_toUInt32_of_le (Int32.le_iff_toInt_le.2 h)]
  exact Int.toNat_of_nonneg h

/-- Without its sign bit a field holds the number or, if it is negative, its complement. -/
theorem magnitude_lt_iff {n : Int32} {width : Nat} :
    (if n < 0 then ~~~n else n).toUInt32.toNat < Nat.pow 2 width ↔ Bits.Holds (width + 1) n := by
  have hpow : Nat.pow 2 (width + 1) = Nat.pow 2 width * 2 := rfl
  unfold Bits.Holds
  rw [hpow]
  by_cases hsign : n < 0
  · rw [if_pos hsign]
    have hneg : n.toInt < 0 := Int32.lt_iff_toInt_lt.1 hsign
    have hlow : -2147483648 ≤ n.toInt := n.le_toInt
    have hcomplement : (~~~n).toInt = -n.toInt - 1 := by
      rw [Int32.toInt_not]
      apply Int.bmod_eq_of_le_mul_two <;> omega
    have hnat := toNat_of_nonneg (n := ~~~n) (by omega)
    omega
  · rw [if_neg hsign]
    have hpos : 0 ≤ n.toInt := Int.not_lt.1 fun h => hsign (Int32.lt_iff_toInt_lt.2 h)
    have hnat := toNat_of_nonneg hpos
    omega

theorem signedWidth_pos (n : Int32) : 1 ≤ signedWidth n :=
  Nat.le_min.2 ⟨by decide, Nat.le_add_left 1 _⟩

/-- The width of a number that fits into the widest field is the least that holds it. -/
theorem signedWidth_le_iff {n : Int32} (h : Bits.Holds maxWidth n) {width : Nat}
    (hwidth : 1 ≤ width) :
    signedWidth n ≤ width ↔ Bits.Holds width n := by
  obtain ⟨width, rfl⟩ := Nat.exists_eq_add_of_le' hwidth
  have hmagnitude : bitLength (if n < 0 then ~~~n else n).toUInt32.toNat + 1 ≤ maxWidth :=
    Nat.succ_le_succ (bitLength_le_iff.2 (magnitude_lt_iff.2 h))
  unfold signedWidth
  simp only
  rw [Nat.min_eq_right hmagnitude, Nat.add_le_add_iff_right, bitLength_le_iff, magnitude_lt_iff]

def coordinates (r : Rectangle) : List Int32 := [r.xMin, r.xMax, r.yMin, r.yMax]

theorem forall_coordinates {r : Rectangle} {P : Int32 → Prop} :
    (∀ n ∈ r.coordinates, P n) ↔ P r.xMin ∧ P r.xMax ∧ P r.yMin ∧ P r.yMax := by
  simp [coordinates]

/-- All coordinates lie in the range of the widest field. -/
def InRange (r : Rectangle) : Prop :=
  ∀ n ∈ r.coordinates, -1073741824 ≤ n.toInt ∧ n.toInt < 1073741824

theorem inRange_iff {r : Rectangle} : r.InRange ↔ ∀ n ∈ r.coordinates, Bits.Holds maxWidth n := by
  have hpow : Nat.pow 2 maxWidth = 2147483648 := rfl
  refine forall₂_congr fun n _ => ?_
  unfold Bits.Holds
  rw [hpow]
  omega

theorem fieldWidth_pos (r : Rectangle) : 1 ≤ r.fieldWidth :=
  Nat.le_trans (signedWidth_pos r.xMin)
    (Nat.le_trans (Nat.le_max_left _ _) (Nat.le_max_left _ _))

theorem fieldWidth_le_iff {r : Rectangle} (h : r.InRange) {width : Nat} (hwidth : 1 ≤ width) :
    r.fieldWidth ≤ width ↔ ∀ n ∈ r.coordinates, Bits.Holds width n := by
  obtain ⟨hxMin, hxMax, hyMin, hyMax⟩ := forall_coordinates.1 (inRange_iff.1 h)
  unfold fieldWidth
  rw [forall_coordinates, Nat.max_le, Nat.max_le, Nat.max_le, signedWidth_le_iff hxMin hwidth,
    signedWidth_le_iff hxMax hwidth, signedWidth_le_iff hyMin hwidth,
    signedWidth_le_iff hyMax hwidth, and_assoc]

/-- The fields of a rectangle in range are as narrow as they can be. -/
theorem isLeast_fieldWidth {r : Rectangle} (h : r.InRange) :
    IsLeast {width | 1 ≤ width ∧ ∀ n ∈ r.coordinates, Bits.Holds width n} r.fieldWidth := by
  constructor
  · exact ⟨r.fieldWidth_pos, (fieldWidth_le_iff h r.fieldWidth_pos).1 (Nat.le_refl _)⟩
  · rintro width ⟨hwidth, hholds⟩
    exact (fieldWidth_le_iff h hwidth).2 hholds

theorem kept_eq_iff_holds {r : Rectangle} :
    r.kept = r ↔ ∀ n ∈ r.coordinates, Bits.Holds r.fieldWidth n := by
  have hwidth : r.fieldWidth < 32 := Nat.lt_succ_of_le r.fieldWidth_le
  rw [forall_coordinates, kept, Rectangle.mk.injEq, Bits.kept_eq_self_iff hwidth,
    Bits.kept_eq_self_iff hwidth, Bits.kept_eq_self_iff hwidth, Bits.kept_eq_self_iff hwidth]

/-- A rectangle comes back as it was written if all coordinates are in range, and only then. -/
theorem kept_eq_iff {r : Rectangle} : r.kept = r ↔ r.InRange := by
  rw [kept_eq_iff_holds]
  constructor
  · intro h
    exact inRange_iff.2 fun n hn => (h n hn).mono r.fieldWidth_le
  · intro h
    exact (isLeast_fieldWidth h).1.2

/-! ### The width that stands in a file -/

/-- The width in front of the fields. -/
def announcedWidth (bytes : Bytes) : Nat := Bits.toNat ((Bits.ofBytes bytes).take 5)

theorem announcedWidth_write (r : Rectangle) (rest : Bytes) :
    announcedWidth (r.write ++ rest) = r.fieldWidth := by
  obtain ⟨count, hbits⟩ := Bits.ofBytes_toBytes r.bits
  rw [announcedWidth, Bits.ofBytes_append, write, hbits, bits]
  simp only [List.append_assoc]
  rw [List.take_left' (Bits.length_ofNat 5 _), Bits.toNat_ofNat]
  exact Nat.mod_eq_of_lt (Nat.lt_succ_of_le r.fieldWidth_le)

end Rectangle

/-! ### Whole files -/

namespace Header

/-- However the body was compressed, a file gives back its tags and its header, with the length of the
file before compression. The frame comes back if its coordinates are in range and only then, and its
fields are then as narrow as they can be. -/
theorem read_written [Codec] {h : Header} (hscheme : h.compression ≠ .lzma) {tags : Bytes}
    (hsize : (h.body tags).length < 4294967288) :
    ∃ file header, h.write tags = .ok file ∧ h.IsFile tags file ∧
      (∀ other, h.IsFile tags other → Header.read other = .ok (header, tags)) ∧
      header.compression = h.compression ∧ header.version = h.version ∧
      header.frameRate = h.frameRate ∧ header.frameCount = h.frameCount ∧
      header.fileLength.toNat = 8 + (h.body tags).length ∧
      (header.frameSize = h.frameSize ↔ h.frameSize.InRange) ∧
      (h.frameSize.InRange →
        IsLeast {width | 1 ≤ width ∧ ∀ n ∈ h.frameSize.coordinates, Bits.Holds width n}
          (Rectangle.announcedWidth (h.body tags))) := by
  obtain ⟨file, hwrite, hfile⟩ := exists_isFile hscheme tags
  refine ⟨file, h.kept tags, hwrite, hfile, ?_, rfl, rfl, rfl, rfl, ?_, Rectangle.kept_eq_iff, ?_⟩
  · rintro other ⟨packed, hexpand, rfl⟩
    exact read_file h tags hexpand
  · have hlength : (h.body tags).length + 8 < UInt32.size := Nat.add_lt_of_lt_sub hsize
    rw [kept, UInt32.toNat_ofNat_of_lt' hlength, Nat.add_comm]
  · intro hrange
    have hannounced : Rectangle.announcedWidth (h.body tags) = h.frameSize.fieldWidth := by
      rw [body, List.append_assoc, List.append_assoc, Rectangle.announcedWidth_write]
    rw [hannounced]
    exact Rectangle.isLeast_fieldWidth hrange

/-- The left side is as far out as it can be, and the right side is given. -/
def reaching (xMax : Int32) : Header := ⟨.zlib, 10, 0, ⟨-1073741824, xMax, 0, 20⟩, 0xFFFF, 1⟩

/-- The right side cannot be further out than 2^30 - 1. -/
theorem read_written_reaching :
    (∃ file header, (reaching 1073741823).write [64, 0] = .ok file ∧
      Header.read file = .ok (header, [64, 0]) ∧ header.fileLength.toNat = 31 ∧
      header.frameSize = (reaching 1073741823).frameSize ∧
      IsLeast {width | 1 ≤ width ∧
          ∀ n ∈ (reaching 1073741823).frameSize.coordinates, Bits.Holds width n}
        (Rectangle.announcedWidth ((reaching 1073741823).body [64, 0]))) ∧
      ∃ file header, (reaching 1073741824).write [64, 0] = .ok file ∧
        Header.read file = .ok (header, [64, 0]) ∧ header.fileLength.toNat = 31 ∧
        header.frameSize ≠ (reaching 1073741824).frameSize := by
  have hinner : (reaching 1073741823).frameSize.InRange := by
    refine Rectangle.forall_coordinates.2 ?_
    simp [reaching]
  have houter : ¬ (reaching 1073741824).frameSize.InRange := by
    intro h
    have hright := (Rectangle.forall_coordinates.1 h).2.1.2
    simp [reaching] at hright
  have hscheme (xMax : Int32) : (reaching xMax).compression ≠ .lzma := fun h => nomatch h
  constructor
  · have hlength : ((reaching 1073741823).body [64, 0]).length = 23 := by decide +kernel
    obtain ⟨file, header, hwrite, hfile, hread, -, -, -, -, hheader, hframe, hleast⟩ :=
      read_written (hscheme 1073741823) (by rw [hlength]; decide)
    refine ⟨file, header, hwrite, hread file hfile, ?_, hframe.2 hinner, hleast hinner⟩
    rw [hheader, hlength]
  · have hlength : ((reaching 1073741824).body [64, 0]).length = 23 := by decide +kernel
    obtain ⟨file, header, hwrite, hfile, hread, -, -, -, -, hheader, hframe, -⟩ :=
      read_written (hscheme 1073741824) (by rw [hlength]; decide)
    refine ⟨file, header, hwrite, hread file hfile, ?_, fun h => houter (hframe.1 h)⟩
    rw [hheader, hlength]

end Header
end PackedMovie.Swf
