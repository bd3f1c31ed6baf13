import PackedMovie.Zlib.BitSource

/-!
# Canonical Huffman codes

A code is given by the length of each symbol's code word, zero for a symbol without one. Words of one
length are consecutive numbers in the order of the symbols, and follow those of the shorter lengths.
-/
namespace PackedMovie.Zlib

/-- The longest code word. -/
def maxCodeLength : Nat := 15

/-- How many words there are of each length from one on, and the symbols in the order of their words. -/
structure Huffman where
  counts : List Nat
  symbols : Array Nat

namespace Huffman

/-- The symbols whose words have a given length. -/
def symbolsOf (lengths : List Nat) (length : Nat) : List Nat :=
  (lengths.zipIdx.filter fun p => p.1 == length).map Prod.snd

def ofLengths (lengths : List Nat) : Huffman :=
  let groups := (List.range maxCodeLength).map fun n => symbolsOf lengths (n + 1)
  ⟨groups.map List.length, groups.flatten.toArray⟩

/-- The share of all words of full length that begin with a word of the code. -/
def weight : List Nat → Nat
  | [] => 0
  | n :: rest => (if n = 0 then 0 else Nat.pow 2 (maxCodeLength - n)) + weight rest

/-- Does every long enough run of bits begin with just one word? -/
def isComplete (lengths : List Nat) : Bool := weight lengths == Nat.pow 2 maxCodeLength

def usedSymbols (lengths : List Nat) : Nat := lengths.countP (· != 0)

/-- The code of some lengths, if it is complete. -/
def complete? (lengths : List Nat) : Option Huffman :=
  if isComplete lengths then some (ofLengths lengths) else none

/-- Is there no word, or a single one of one bit? -/
def isTrivial (lengths : List Nat) : Bool := usedSymbols lengths ≤ 1 && lengths.all (· ≤ 1)

/-- The code of some lengths, if it is complete or trivial. -/
def completeOrTrivial? (lengths : List Nat) : Option Huffman :=
  if isComplete lengths || isTrivial lengths then some (ofLengths lengths) else none

/-- Goes on with a word of which the bits `word` have been read. The first word of the present length is
`first`, and `index` symbols have shorter words. -/
def decodeFrom (symbols : Array Nat) : List Nat → Nat → Nat → Nat → BitStep Nat
  | [], _, _, _ => fun _ => none
  | count :: counts, word, first, index => do
    let b ← BitStep.bit
    let word := 2 * word + b.toNat
    if word < first + count then
      match symbols[index + (word - first)]? with
      | some symbol => pure symbol
      | none => fun _ => none
    else decodeFrom symbols counts word (2 * (first + count)) (index + count)

/-- The symbol whose word comes next. -/
def decode (h : Huffman) : BitStep Nat := decodeFrom h.symbols h.counts 0 0 0

end Huffman
end PackedMovie.Zlib
