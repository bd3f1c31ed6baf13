import PackedMovie.Zlib.Huffman

/-!
# Inflating

The blocks of a deflate stream: stored, with the fixed codes, or with codes of their own. What is read
goes to the end of an array, from which repetitions are copied. The window before the first byte holds
zeros.
-/
namespace PackedMovie.Zlib

abbrev Output := Array UInt8

/-- The least length or distance of a symbol, and how many bits are added to it. -/
abbrev Range := Nat × Nat

/-- Lengths, from symbol 257 on. -/
def lengthRanges : List Range :=
  [(3, 0), (4, 0), (5, 0), (6, 0), (7, 0), (8, 0), (9, 0), (10, 0), (11, 1), (13, 1), (15, 1),
    (17, 1), (19, 2), (23, 2), (27, 2), (31, 2), (35, 3), (43, 3), (51, 3), (59, 3), (67, 4),
    (83, 4), (99, 4), (115, 4), (131, 5), (163, 5), (195, 5), (227, 5), (258, 0)]

def distanceRanges : List Range :=
  [(1, 0), (2, 0), (3, 0), (4, 0), (5, 1), (7, 1), (9, 2), (13, 2), (17, 3), (25, 3), (33, 4),
    (49, 4), (65, 5), (97, 5), (129, 6), (193, 6), (257, 7), (385, 7), (513, 8), (769, 8),
    (1025, 9), (1537, 9), (2049, 10), (3073, 10), (4097, 11), (6145, 11), (8193, 12), (12289, 12),
    (16385, 13), (24577, 13)]

/-- The order in which the lengths of the code for lengths are stored. -/
def lengthOrder : List Nat := [16, 17, 18, 0, 8, 7, 9, 6, 10, 5, 11, 4, 12, 3, 13, 2, 14, 1, 15]

def fail {α : Type} : BitStep α := fun _ => none

def liftOption {α : Type} : Option α → BitStep α
  | some a => pure a
  | none => fail

/-- The length or distance that a symbol stands for. -/
def readRange (ranges : List Range) (symbol : Nat) : BitStep Nat := do
  let (base, extra) ← liftOption ranges[symbol]?
  let offset ← BitStep.number extra
  pure (base + offset)

/-- Repeats `length` bytes that begin `distance` before the end. -/
def copy (distance : Nat) : Nat → Output → Output
  | 0, out => out
  | length + 1, out =>
    let byte := if distance ≤ out.size then out[out.size - distance]?.getD 0 else 0
    copy distance length (out.push byte)

/-- The symbols of a block up to the one that ends it. Each takes a bit or more, so as many steps as
there are bits are enough. -/
def symbolsFrom (literals distances : Huffman) : Nat → Output → BitStep Output
  | 0, _ => fail
  | steps + 1, out => do
    let symbol ← literals.decode
    if symbol < 256 then symbolsFrom literals distances steps (out.push (UInt8.ofNat symbol))
    else if symbol = 256 then pure out
    else
      let length ← readRange lengthRanges (symbol - 257)
      let code ← distances.decode
      let distance ← readRange distanceRanges code
      symbolsFrom literals distances steps (copy distance length out)

def coded (literals distances : Huffman) (out : Output) : BitStep Output := do
  let source ← get
  symbolsFrom literals distances source.size out

def fixedLiterals : List Nat :=
  List.replicate 144 8 ++ List.replicate 112 9 ++ List.replicate 24 7 ++ List.replicate 8 8

def fixedDistances : List Nat := List.replicate 32 5

/-- The code lengths of a block, until `total` are there; `done` holds them in reverse. Runs may not go
beyond the total. -/
def lengthsFrom (code : Huffman) (total : Nat) : Nat → List Nat → BitStep (List Nat)
  | 0, done => if done.length = total then pure done.reverse else fail
  | steps + 1, done =>
    if total ≤ done.length then lengthsFrom code total 0 done
    else do
      let symbol ← code.decode
      if symbol < 16 then lengthsFrom code total steps (symbol :: done)
      else if symbol = 16 then
        match done with
        | [] => fail
        | previous :: _ =>
          let more ← BitStep.number 2
          lengthsFrom code total steps (List.replicate (3 + more) previous ++ done)
      else if symbol = 17 then
        let more ← BitStep.number 3
        lengthsFrom code total steps (List.replicate (3 + more) 0 ++ done)
      else
        let more ← BitStep.number 7
        lengthsFrom code total steps (List.replicate (11 + more) 0 ++ done)

def numbers (width : Nat) : Nat → BitStep (List Nat)
  | 0 => pure []
  | count + 1 => do
    let head ← BitStep.number width
    let tail ← numbers width count
    pure (head :: tail)

/-- The codes that a block brings along. -/
def ownCodes : BitStep (Huffman × Huffman) := do
  let literalCount := (← BitStep.number 5) + 257
  let distanceCount := (← BitStep.number 5) + 1
  let lengthCount := (← BitStep.number 4) + 4
  if literalCount > 286 ∨ distanceCount > 30 then fail
  else
    let stored := lengthOrder.zip (← numbers 3 lengthCount)
    let code ← liftOption (Huffman.complete? ((List.range 19).map fun n =>
      (stored.lookup n).getD 0))
    let total := literalCount + distanceCount
    let lengths ← lengthsFrom code total total []
    let literals ← liftOption (Huffman.completeOrTrivial? (lengths.take literalCount))
    let distances ← liftOption (Huffman.completeOrTrivial? (lengths.drop literalCount))
    pure (literals, distances)

/-- A length and its complement, then as many bytes. -/
def stored (out : Output) : BitStep Output := do
  let length := LittleEndian.decode (← BitStep.bytes 2)
  let complement := LittleEndian.decode (← BitStep.bytes 2)
  if length + complement = 0xFFFF then
    let bytes ← BitStep.bytes length
    pure (out ++ bytes)
  else fail

def block (kind : Nat) (out : Output) : BitStep Output :=
  if kind = 0 then stored out
  else if kind = 1 then
    coded (Huffman.ofLengths fixedLiterals) (Huffman.ofLengths fixedDistances) out
  else if kind = 2 then do
    let (literals, distances) ← ownCodes
    coded literals distances out
  else fail

/-- All blocks up to the one marked as last. -/
def blocksFrom : Nat → Output → BitStep Output
  | 0, _ => fail
  | steps + 1, out => do
    let isLast ← BitStep.bit
    let kind ← BitStep.number 2
    let out ← block kind out
    if isLast then pure out else blocksFrom steps out

def inflate : BitStep Output := do
  let source ← get
  blocksFrom source.size #[]

end PackedMovie.Zlib
