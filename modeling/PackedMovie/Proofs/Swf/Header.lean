import PackedMovie.Proofs.Bytes.Exact
import PackedMovie.Proofs.Swf.Bits
import PackedMovie.Swf.Header

/-!
# Headers read back

A written file is split into its header and its tags again. The length in the header becomes that of
the file, and the frame what its fields can hold.

Main statement: `Header.write_read`.
-/
namespace PackedMovie.Swf

open PackedMovie.Reader (Reads)

namespace Rectangle

/-- What the fields of a rectangle can hold of it. -/
def kept (r : Rectangle) : Rectangle where
  xMin := Bits.kept r.fieldWidth r.xMin
  xMax := Bits.kept r.fieldWidth r.xMax
  yMin := Bits.kept r.fieldWidth r.yMin
  yMax := Bits.kept r.fieldWidth r.yMax

theorem signedWidth_le (n : Int32) : signedWidth n ≤ maxWidth := Nat.min_le_left _ _

theorem fieldWidth_le (r : Rectangle) : r.fieldWidth ≤ maxWidth :=
  Nat.max_le.2 ⟨Nat.max_le.2 ⟨signedWidth_le _, signedWidth_le _⟩,
    Nat.max_le.2 ⟨signedWidth_le _, signedWidth_le _⟩⟩

theorem bitReads (r : Rectangle) : BitReads readBits r.bits r.kept := by
  have hwidth := BitReads.number 5 r.fieldWidth
  have hmod : r.fieldWidth % Nat.pow 2 5 = r.fieldWidth :=
    Nat.mod_eq_of_lt (Nat.lt_succ_of_le r.fieldWidth_le)
  rw [hmod] at hwidth
  unfold bits
  simp only [List.append_assoc]
  apply hwidth.bind
  apply (BitReads.signed _ _).bind
  apply (BitReads.signed _ _).bind
  exact (BitReads.signed _ _).bind (BitReads.signed _ _).bind_pure

theorem reads (r : Rectangle) : Reads Rectangle.read r.write r.kept := by
  intro offset rest
  obtain ⟨count, hbits⟩ := Bits.ofBytes_toBytes r.bits
  have hread : readBits (.ofBytes (r.write ++ rest)) =
      .ok r.kept ⟨r.bits.length, List.replicate count false ++ Bits.ofBytes rest⟩ := by
    rw [BitCursor.ofBytes, Bits.ofBytes_append, write, hbits, List.append_assoc, bitReads r 0,
      Nat.zero_add]
  have hlength :
      BitCursor.byteLength ⟨r.bits.length, List.replicate count false ++ Bits.ofBytes rest⟩ =
      r.write.length := (Bits.length_toBytes r.bits).symm
  unfold Rectangle.read
  refine PackedMovie.Reader.bind_eq_ok_iff.2 ⟨⟨offset, r.write ++ rest⟩, _, rfl, ?_⟩
  rw [hread]
  simp only
  rw [hlength]
  exact (Reads.bytes r.write).bind_pure offset rest

end Rectangle

namespace Header

theorem reads_preamble (h : Header) (length : Nat) :
    Reads readPreamble (h.compression.signatureBytes ++
      ([h.version] ++ LittleEndian.encode 4 length))
      ⟨h.compression, h.version, UInt32.ofNat length⟩ := by
  have hsignature : Reads (PackedMovie.Reader.bytes 3 : Reader Bytes) h.compression.signatureBytes
      h.compression.signatureBytes := Reads.bytes h.compression.signatureBytes
  apply hsignature.bind
  simp only [Compression.signatureBytes]
  rw [Compression.ofSignature_signature]
  simp only
  exact (Reads.u8 h.version).bind (Reads.u32 length).bind_pure

theorem reads_frames (h : Header) :
    Reads readFrames (h.frameSize.write ++ (LittleEndian.encode 2 h.frameRate.toNat ++
      LittleEndian.encode 2 h.frameCount.toNat)) (h.frameSize.kept, h.frameRate, h.frameCount) :=
  h.frameSize.reads.bind ((Reads.u16 h.frameRate).bind (Reads.u16 h.frameCount).bind_pure)

theorem expand_compress [Codec] {compression : Compression} (hscheme : compression ≠ .lzma)
    (body : Bytes) :
    ∃ compressed, compress compression body = .ok compressed ∧
      expand compression compressed = .ok body := by
  cases compression with
  | none => exact ⟨body, rfl, rfl⟩
  | zlib =>
    refine ⟨Codec.deflate body, rfl, ?_⟩
    unfold expand
    simp only
    rw [Codec.inflate_deflate]
  | lzma => exact absurd rfl hscheme

/-- A file of a header and some tags whose body may have been compressed in any way. -/
def IsFile [Codec] (h : Header) (tags file : Bytes) : Prop :=
  ∃ packed, expand h.compression packed = .ok (h.body tags) ∧
    file = h.compression.signatureBytes ++ h.version ::
      LittleEndian.encode 4 ((h.body tags).length + 8) ++ packed

theorem exists_isFile [Codec] {h : Header} (hscheme : h.compression ≠ .lzma) (tags : Bytes) :
    ∃ file, h.write tags = .ok file ∧ h.IsFile tags file := by
  obtain ⟨packed, hcompress, hexpand⟩ := expand_compress hscheme (h.body tags)
  exact ⟨_, by rw [write, hcompress], packed, hexpand, rfl⟩

/-- The header that is read back from a file with some tags. -/
def kept (h : Header) (tags : Bytes) : Header :=
  { h with
    fileLength := UInt32.ofNat ((h.body tags).length + 8)
    frameSize := h.frameSize.kept }

/-- A file is read as its header and its tags, however its body was compressed. -/
theorem read_file [Codec] (h : Header) (tags : Bytes) {packed : Bytes}
    (hexpand : expand h.compression packed = .ok (h.body tags)) :
    Header.read (h.compression.signatureBytes ++ h.version ::
      LittleEndian.encode 4 ((h.body tags).length + 8) ++ packed) = .ok (h.kept tags, tags) := by
  have hpreamble := reads_preamble h ((h.body tags).length + 8) 0 packed
  have hframes := reads_frames h 0 tags
  rw [List.append_assoc, List.append_assoc] at hpreamble
  rw [← List.append_assoc (Rectangle.write _), ← body] at hframes
  unfold Header.read
  simp only [Cursor.ofBytes, List.append_assoc, List.cons_append] at hpreamble ⊢
  rw [List.nil_append] at hpreamble
  rw [hpreamble]
  simp only
  rw [hexpand]
  simp only
  rw [hframes]
  rfl

/-- A written file is read as its header and its tags. -/
theorem write_read [Codec] {h : Header} (hscheme : h.compression ≠ .lzma) (tags : Bytes) :
    ∃ file, h.write tags = .ok file ∧ Header.read file = .ok (h.kept tags, tags) := by
  obtain ⟨_, hwrite, packed, hexpand, rfl⟩ := exists_isFile hscheme tags
  exact ⟨_, hwrite, read_file h tags hexpand⟩

end Header

end PackedMovie.Swf
