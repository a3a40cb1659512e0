import ShiftReduce.Table.Bytes
import ShiftReduce.Table.Consistency

/-!
# Table files

Tables as bytes: a signature, ten words with sizes and counts, the two tables of segments, the
productions of the states, the heads and lengths of the productions, and the long words of the
lookahead. Reading takes exactly what writing gives and leaves the bytes behind it.
-/

namespace ShiftReduce

/-- Why bytes are no tables. -/
inductive ReadError
  | badMagic
  /-- the bytes end too early -/
  | truncated
  /-- the tables do not fit together -/
  | inconsistent (why : Inconsistency)
deriving DecidableEq

def ReadError.message : ReadError → String
  | badMagic => "not a table file (bad magic)"
  | truncated => "unexpected eof while reading tables"
  | inconsistent why => "inconsistent tables: " ++ why.message

namespace Tables

open Bytes

/-- The signature that opens a table file: the letters LRTBL001. -/
def signature : List UInt8 :=
  [0x4C, 0x52, 0x54, 0x42, 0x4C, 0x30, 0x30, 0x31]

/-- The bytes of segments. -/
def segmentBytes (s : Segments) : List UInt8 :=
  ofWords s.offsets ++ s.entries.flatMap fun e => ofWord e.1 ++ ofWord e.2

/-- The words behind the signature. -/
def headWords (t : Tables) : List UInt32 :=
  [t.terminalCount, t.nonterminalCount, t.start, UInt32.ofNat t.stateCount,
    UInt32.ofNat t.productionCount, UInt32.ofNat t.shift.entries.length,
    UInt32.ofNat t.goto.entries.length, t.lookahead.wordsPerRow, t.shiftReduceConflicts,
    t.reduceReduceConflicts]

def write (t : Tables) : List UInt8 :=
  signature ++ ofWords t.headWords ++ segmentBytes t.shift ++ segmentBytes t.goto
    ++ ofWords t.reduce ++ ofWords t.heads ++ ofWords t.lengths
    ++ t.lookahead.words.flatMap ofLongWord

/-- Reads segments of so many states and entries. -/
def readSegments (states entries : UInt32) : Reader Segments := do
  let offsets ← many word states.toNat
  let pairs ← many wordPair entries.toNat
  return ⟨offsets, pairs⟩

/-- Reads what follows the signature. -/
def readBody : Reader Tables := do
  let terminalCount ← word
  let nonterminalCount ← word
  let start ← word
  let states ← word
  let productions ← word
  let shiftEntries ← word
  let gotoEntries ← word
  let wordsPerRow ← word
  let shiftReduceConflicts ← word
  let reduceReduceConflicts ← word
  let shift ← readSegments states shiftEntries
  let goto ← readSegments states gotoEntries
  let reduce ← many word states.toNat
  let heads ← many word productions.toNat
  let lengths ← many word productions.toNat
  let words ← many longWord (productions.toNat * wordsPerRow.toNat)
  return {
    terminalCount, nonterminalCount, start, shift, goto, reduce, heads, lengths
    lookahead := ⟨wordsPerRow, words⟩
    shiftReduceConflicts, reduceReduceConflicts }

/-- Reads consistent tables off the front of some bytes; the bytes behind them are left. The signature
is looked at first and the consistency last. -/
def read (bytes : List UInt8) : Except ReadError (Tables × List UInt8) :=
  match take signature.length bytes with
  | none => .error .truncated
  | some (found, rest) =>
    if found ≠ signature then .error .badMagic
    else match readBody rest with
      | none => .error .truncated
      | some (t, rest) =>
        match t.inconsistency? with
        | some why => .error (.inconsistent why)
        | none => .ok (t, rest)

end Tables

end ShiftReduce
