/-!
# Bit rows

Sets of small numbers as rows of 64-bit words: a number is a bit, the lowest bit of the first word of a
row stands for 0.
-/

namespace ShiftReduce

/-- The number whose bits below `count` are given by `bit`. -/
def packBits (bit : Nat → Bool) : Nat → Nat
  | 0 => 0
  | count + 1 => packBits bit count + if bit count then Nat.pow 2 count else 0

/-- How many words hold a row of this many bits. -/
def wordsFor (bits : Nat) : Nat :=
  (bits + 63) / 64

structure BitRows where
  wordsPerRow : UInt32
  words : List UInt64
deriving DecidableEq

namespace BitRows

/-- The words of a set of numbers. -/
def pack (width : Nat) (set : List Nat) : List UInt64 :=
  (List.range width).map fun w =>
    UInt64.ofNat (packBits (fun j => set.contains (64 * w + j)) 64)

/-- The rows of some sets of numbers below `bits`. -/
def ofSets (bits : Nat) (sets : List (List Nat)) : BitRows :=
  let width := wordsFor bits
  ⟨UInt32.ofNat width, sets.flatMap (pack width)⟩

/-- Whether a number is in a row; nothing past the end of the row is, nor past the last word. -/
def contains (r : BitRows) (row x : Nat) : Bool :=
  let width := r.wordsPerRow.toNat
  x < 64 * width &&
    match r.words[row * width + x / 64]? with
    | some word => word.toNat.testBit (x % 64)
    | none => false

end BitRows

end ShiftReduce
