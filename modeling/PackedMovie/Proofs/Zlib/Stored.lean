import PackedMovie.Zlib.Container

/-!
# Stored streams inflate

Bytes that are stored in blocks come out of the container as they were put in.

Main statement: `decompress_compress`.
-/
namespace PackedMovie.Zlib

/-! ### Steps -/

theorem bind_of_some {α β : Type} {r : BitStep α} {f : α → BitStep β} {s t : BitSource} {a : α}
    (h : r s = some (a, t)) : (r >>= f) s = f a t := by
  change (r s).bind (fun p => f p.1 p.2) = f a t
  rw [h]
  rfl

theorem bytes_append (pending : List Bool) (raw rest : Bytes) :
    BitStep.bytes raw.length ⟨pending, raw ++ rest⟩ = some (raw, ⟨[], rest⟩) := by
  unfold BitStep.bytes
  simp

theorem bytes_encode (width n : Nat) (pending : List Bool) (rest : Bytes) :
    BitStep.bytes width ⟨pending, LittleEndian.encode width n ++ rest⟩ =
      some (LittleEndian.encode width n, ⟨[], rest⟩) := by
  have h := bytes_append pending (LittleEndian.encode width n) rest
  rwa [LittleEndian.length_encode] at h

/-! ### Blocks -/

theorem stored_append {bytes : Bytes} (hlen : bytes.length ≤ maxStored) (pending : List Bool)
    (rest : Bytes) (out : Output) :
    stored out ⟨pending, LittleEndian.encode 2 bytes.length ++
      (LittleEndian.encode 2 (0xFFFF - bytes.length) ++ (bytes ++ rest))⟩ =
      some (out ++ bytes, ⟨[], rest⟩) := by
  have hmax : bytes.length ≤ 65535 := hlen
  have hlength : LittleEndian.decode (LittleEndian.encode 2 bytes.length) = bytes.length := by
    rw [LittleEndian.decode_encode]
    exact Nat.mod_eq_of_lt (Nat.lt_succ_of_le hmax)
  have hcomplement : LittleEndian.decode (LittleEndian.encode 2 (0xFFFF - bytes.length)) =
      0xFFFF - bytes.length := by
    rw [LittleEndian.decode_encode]
    exact Nat.mod_eq_of_lt (by change _ < 65536; omega)
  unfold stored
  rw [bind_of_some (bytes_encode 2 _ pending _)]
  rw [bind_of_some (bytes_encode 2 _ [] _)]
  rw [hlength, hcomplement, if_pos (by omega), bind_of_some (bytes_append [] bytes rest)]
  rfl

theorem blocksFrom_storedBlock {bytes : Bytes} (hlen : bytes.length ≤ maxStored) (isLast : Bool)
    (steps : Nat) (out : Output) (rest : Bytes) :
    blocksFrom (steps + 1) out ⟨[], storedBlock isLast bytes ++ rest⟩ =
      if isLast then some (out ++ bytes, ⟨[], rest⟩)
      else blocksFrom steps (out ++ bytes) ⟨[], rest⟩ := by
  have hstored (pending : List Bool) := stored_append hlen pending rest out
  rw [storedBlock, blocksFrom]
  simp only [List.cons_append, List.append_assoc]
  cases isLast with
  | true =>
    rw [bind_of_some (a := true) rfl, bind_of_some (a := 0) rfl]
    exact bind_of_some (hstored _)
  | false =>
    rw [bind_of_some (a := false) rfl, bind_of_some (a := 0) rfl]
    exact bind_of_some (hstored _)

theorem blocksFrom_storedBlocks (bytes : Bytes) {steps : Nat} (hsteps : bytes.length < steps)
    (out : Output) (rest : Bytes) :
    blocksFrom steps out ⟨[], storedBlocks bytes ++ rest⟩ = some (out ++ bytes, ⟨[], rest⟩) := by
  fun_induction storedBlocks bytes generalizing steps out with
  | case1 bytes hlong ih =>
    have hmax : 65535 < bytes.length := hlong
    have htake : (bytes.take maxStored).length ≤ maxStored := List.length_take_le _ _
    obtain ⟨steps, rfl⟩ : ∃ n, steps = n + 1 := ⟨steps - 1, by omega⟩
    rw [List.append_assoc, blocksFrom_storedBlock htake]
    have hrest : (bytes.drop maxStored).length < steps := by
      rw [List.length_drop]
      simp only [maxStored]
      omega
    have hout : out ++ bytes.take maxStored ++ bytes.drop maxStored = out ++ bytes := by
      apply Array.toList_inj.1
      simp
    rw [if_neg Bool.false_ne_true, ih hrest, hout]
  | case2 bytes hshort =>
    obtain ⟨steps, rfl⟩ : ∃ n, steps = n + 1 := ⟨steps - 1, by omega⟩
    rw [blocksFrom_storedBlock (Nat.not_lt.1 hshort), if_pos rfl]

theorem length_lt_storedBlocks (bytes : Bytes) : bytes.length < (storedBlocks bytes).length := by
  fun_induction storedBlocks bytes with
  | case1 bytes hlong ih =>
    have hmax : 65535 < bytes.length := hlong
    simp only [storedBlock, maxStored, List.length_append, List.length_cons, List.length_take,
      List.length_drop, LittleEndian.length_encode] at ih ⊢
    omega
  | case2 bytes hshort =>
    simp only [storedBlock, List.length_append, List.length_cons, LittleEndian.length_encode]
    omega

/-! ### The container -/

theorem inflate_storedBlocks (bytes rest : Bytes) :
    inflate ⟨[], storedBlocks bytes ++ rest⟩ = some (⟨bytes⟩, ⟨[], rest⟩) := by
  have hlength := length_lt_storedBlocks bytes
  have hsize : bytes.length < BitSource.size ⟨[], storedBlocks bytes ++ rest⟩ := by
    rw [BitSource.size, List.length_append]
    omega
  have hout : (#[] : Output) ++ bytes = ⟨bytes⟩ := by
    apply Array.toList_inj.1
    simp
  unfold inflate
  rw [bind_of_some rfl, blocksFrom_storedBlocks bytes hsize, hout]

theorem adlerSums_lt {low high : Nat} (bytes : Bytes) (hlow : low < adlerModulus)
    (hhigh : high < adlerModulus) :
    (adlerSums low high bytes).1 < adlerModulus ∧ (adlerSums low high bytes).2 < adlerModulus := by
  have hpos : 0 < adlerModulus := by decide
  induction bytes generalizing low high with
  | nil => exact ⟨hlow, hhigh⟩
  | cons b rest ih => exact ih (Nat.mod_lt _ hpos) (Nat.mod_lt _ hpos)

theorem adler32_lt (bytes : Bytes) : adler32 bytes < 4294967296 := by
  have hone : 1 < adlerModulus := by decide
  have hzero : 0 < adlerModulus := by decide
  obtain ⟨hlow, hhigh⟩ := adlerSums_lt bytes hone hzero
  simp only [adlerModulus] at hlow hhigh
  unfold adler32
  simp only
  omega

/-- What was stored comes out again, and its checksum is right. -/
theorem decompress_compress (bytes : Bytes) : decompress (compress bytes) = some bytes := by
  have hcheck : LittleEndian.decode (LittleEndian.encode 4 (adler32 bytes)).reverse.reverse =
      adler32 bytes := by
    rw [List.reverse_reverse, LittleEndian.decode_encode]
    exact Nat.mod_eq_of_lt (adler32_lt bytes)
  have hlength : (LittleEndian.encode 4 (adler32 bytes)).reverse.length = 4 := by
    rw [List.length_reverse, LittleEndian.length_encode]
  have hsum := bytes_append [] (LittleEndian.encode 4 (adler32 bytes)).reverse []
  rw [hlength, List.append_nil] at hsum
  have hheader (rest : Bytes) : BitStep.bytes 2 ⟨[], [0x78, 0x9C] ++ rest⟩ =
      some ([0x78, 0x9C], ⟨[], rest⟩) := bytes_append [] [0x78, 0x9C] rest
  have hcontainer : container ⟨[], compress bytes⟩ = some (bytes, ⟨[], []⟩) := by
    unfold container compress
    rw [List.append_assoc, bind_of_some (hheader _)]
    simp only
    rw [if_pos (by decide), bind_of_some (inflate_storedBlocks bytes _)]
    simp only
    rw [bind_of_some hsum, if_pos hcheck]
    rfl
  rw [decompress, StateT.run, BitSource.ofBytes, hcontainer]
  rfl

end PackedMovie.Zlib
