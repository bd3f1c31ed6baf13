import Mathlib.Control.Monad.Basic
import PackedMovie.Proofs.Swf.Header
import PackedMovie.Swf.Movie
import PackedMovie.Zlib.Codec

/-!
# What the front of a file decides

The scheme of compression and the declared length only pass into the header that is reported. A
compressed file is read as its body is, and any length may stand in front of it.

Main statement: `Movie.read_relabelled`.
-/
namespace PackedMovie.Swf

open PackedMovie.Reader (Reads)

namespace Header

/-- The bytes in front of a body: a signature, the player's version and the declared length. -/
def label (a b c version : UInt8) (length : UInt32) : Bytes :=
  [a, b, c] ++ ([version] ++ LittleEndian.encode 4 length.toNat)

theorem reads_signature (a b c : UInt8) :
    Reads (PackedMovie.Reader.bytes 3 : Reader Bytes) [a, b, c] [a, b, c] := Reads.bytes [a, b, c]

theorem readPreamble_label {a b c : UInt8} {scheme : Compression}
    (h : Compression.ofSignature a b c = .ok scheme) (version : UInt8) (length : UInt32) :
    Reads readPreamble (label a b c version length) ⟨scheme, version, length⟩ := by
  have hlength : Reads (PackedMovie.Reader.u32 : Reader UInt32)
      (LittleEndian.encode 4 length.toNat) length := by
    simpa using Reads.u32 (ε := Error) length.toNat
  apply (reads_signature a b c).bind
  simp only [h]
  exact (Reads.u8 version).bind hlength.bind_pure

theorem readPreamble_label_error {a b c : UInt8} {e : Error}
    (h : Compression.ofSignature a b c = .error e) (version : UInt8) (length : UInt32)
    (packed : Bytes) :
    ∃ d, readPreamble (.ofBytes (label a b c version length ++ packed)) = .error e d := by
  unfold readPreamble
  rw [label, List.append_assoc, Cursor.ofBytes, (reads_signature a b c).bind_eq]
  simp only [h]
  exact ⟨_, rfl⟩

/-- The header and the tags of a body, once it is known what stands in front of it. -/
def ofBody (p : Preamble) (body : Bytes) : Except Error (Header × Bytes) :=
  match readFrames (.ofBytes body) with
  | .error e _ => .error e
  | .ok (frameSize, frameRate, frameCount) d =>
    .ok (⟨p.compression, p.version, p.fileLength, frameSize, frameRate, frameCount⟩, d.rest)

/-- A file is read in three steps, and only the last one is given the length. -/
theorem read_label [Codec] (a b c version : UInt8) (length : UInt32) (packed : Bytes) :
    Header.read (label a b c version length ++ packed) =
      Compression.ofSignature a b c >>= fun scheme =>
        expand scheme packed >>= ofBody ⟨scheme, version, length⟩ := by
  cases hsignature : Compression.ofSignature a b c with
  | error e =>
    obtain ⟨d, hpreamble⟩ := readPreamble_label_error hsignature version length packed
    unfold Header.read
    rw [hpreamble]
    rfl
  | ok scheme =>
    have hpreamble := readPreamble_label hsignature version length 0 packed
    unfold Header.read
    rw [Cursor.ofBytes, hpreamble]
    simp only [Bind.bind, Except.bind]
    cases expand scheme packed with
    | error e => rfl
    | ok body => rfl

end Header

namespace Movie

def mapHeader (f : Header → Header) (m : Movie) : Movie := { m with header := f m.header }

/-- The movie of a body, once it is known what stands in front of it. -/
def ofBody (p : Header.Preamble) (body : Bytes) : Except Error Movie := do
  let (header, tags) ← Header.ofBody p body
  ofTags header <$> Tag.readAll (.ofBytes tags)

theorem read_label [Codec] (a b c version : UInt8) (length : UInt32) (packed : Bytes) :
    Movie.read (Header.label a b c version length ++ packed) =
      Compression.ofSignature a b c >>= fun scheme =>
        Header.expand scheme packed >>= ofBody ⟨scheme, version, length⟩ := by
  unfold Movie.read ofBody
  rw [Header.read_label, bind_assoc]
  simp only [bind_assoc]

/-- What stands in front of a body decides what the header says of it, and nothing else. -/
theorem ofBody_eq_mapHeader {p q : Header.Preamble} {f : Header → Header}
    (hf : ∀ size rate count, f ⟨p.compression, p.version, p.fileLength, size, rate, count⟩ =
      ⟨q.compression, q.version, q.fileLength, size, rate, count⟩) (body : Bytes) :
    ofBody q body = mapHeader f <$> ofBody p body := by
  unfold ofBody Header.ofBody
  cases Header.readFrames (.ofBytes body) with
  | error e d => rfl
  | ok frames d =>
    obtain ⟨size, rate, count⟩ := frames
    simp only [Bind.bind, Except.bind]
    rw [← hf]
    cases Tag.readAll (.ofBytes d.rest) with
    | error e => rfl
    | ok tags => rfl

/-- A compressed file is read as the file with its body in plain, under its own scheme and length,
with the same faults; and whatever a file is, another declared length makes another one be reported
and nothing else. -/
theorem read_relabelled [Codec] :
    (∀ z body, Codec.inflate z = some body → ∀ version l₁ l₂,
      Movie.read (Header.label 0x43 0x57 0x53 version l₂ ++ z) =
        mapHeader (fun header => { header with compression := .zlib, fileLength := l₂ }) <$>
          Movie.read (Header.label 0x46 0x57 0x53 version l₁ ++ body)) ∧
    ∀ a b c version l₁ l₂ rest, Movie.read (Header.label a b c version l₂ ++ rest) =
      mapHeader (fun header => { header with fileLength := l₂ }) <$>
        Movie.read (Header.label a b c version l₁ ++ rest) := by
  constructor
  · intro z body hz version l₁ l₂
    have hcompressed : Compression.ofSignature 0x43 0x57 0x53 = .ok .zlib := rfl
    have hplain : Compression.ofSignature 0x46 0x57 0x53 = .ok .none := rfl
    have hexpand : Header.expand .zlib z = .ok body := by
      unfold Header.expand
      simp only [hz]
    rw [read_label, read_label, hcompressed, hplain]
    simp only [Bind.bind, Except.bind]
    rw [hexpand]
    exact ofBody_eq_mapHeader (fun _ _ _ => rfl) body
  · intro a b c version l₁ l₂ rest
    rw [read_label, read_label]
    cases Compression.ofSignature a b c with
    | error e => rfl
    | ok scheme =>
      simp only [Bind.bind, Except.bind]
      cases Header.expand scheme rest with
      | error e => rfl
      | ok body => exact ofBody_eq_mapHeader (fun _ _ _ => rfl) body

/-- A body without a frame size and with one symbol, as another program compressed it. -/
def packedBody : Bytes :=
  [120, 156, 99, 96, 144, 99, 100, 96, 19, 102, 100, 96, 101, 72, 100, 96, 96, 0, 0, 4, 50, 0, 160]

def plainBody : Bytes := [0, 0, 30, 1, 0, 6, 19, 1, 0, 5, 0, 97, 0, 0, 0]

theorem read_relabelled_overlong :
    Zlib.decompress packedBody = some plainBody ∧
      Movie.read (Header.label 0x43 0x57 0x53 9 4294967295 ++ packedBody) =
        .ok (ofTags ⟨.zlib, 9, 4294967295, ⟨0, 0, 0, 0⟩, 30 * 256, 1⟩
          [.symbols [(5, "a")], .endOfTags]) := by
  have hz : Zlib.decompress packedBody = some plainBody := by decide +kernel
  have hplain : Movie.read (Header.label 0x46 0x57 0x53 9 0 ++ plainBody) =
      .ok (ofTags ⟨.none, 9, 0, ⟨0, 0, 0, 0⟩, 30 * 256, 1⟩ [.symbols [(5, "a")], .endOfTags]) := by
    decide +kernel
  refine ⟨hz, ?_⟩
  rw [read_relabelled.1 _ _ hz 9 0 4294967295, hplain]
  rfl

end Movie
end PackedMovie.Swf
