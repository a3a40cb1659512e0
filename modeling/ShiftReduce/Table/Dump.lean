import ShiftReduce.Table.Basic

/-!
# The readable forms of tables

The summary of tables is five lines with their sizes, the last without a line feed. The dump is the
tables as a JSON text over many lines. A value is printed at a depth: its first line stands where the
value is put, its further lines are indented by two blanks per level.
-/

namespace ShiftReduce

/-- A printed JSON value, by the depth it stands at. -/
abbrev Printed := Nat → String

namespace Printed

/-- The blanks at the start of a line. -/
def indent (depth : Nat) : String :=
  String.ofList (List.replicate (2 * depth) ' ')

def number (n : Nat) : Printed :=
  fun _ => toString n

/-- Values on lines of their own between two brackets; two brackets alone without values. -/
def bracketed (opening closing : String) (values : List Printed) : Printed := fun depth =>
  if values.isEmpty then opening ++ closing
  else
    let lines := values.map fun value => indent (depth + 1) ++ value (depth + 1)
    opening ++ "\n" ++ ",\n".intercalate lines ++ "\n" ++ indent depth ++ closing

def list (values : List Printed) : Printed :=
  bracketed "[" "]" values

/-- A value under a key. -/
def keyed (key : String) (value : Printed) : Printed :=
  fun depth => "\"" ++ key ++ "\": " ++ value depth

def record (fields : List (String × Printed)) : Printed :=
  bracketed "\x7b" "\x7d" (fields.map fun f => keyed f.1 f.2)

def words (ws : List UInt32) : Printed :=
  list (ws.map fun w => number w.toNat)

def segments (s : Segments) : Printed :=
  record [("switch", words s.offsets), ("entries", list (s.entries.map fun e => words [e.1, e.2]))]

end Printed

namespace Tables

/-- The line on a table of segments. -/
def segmentLine (name : String) (s : Segments) : String :=
  s!"{name}: {s.occupied} switch entries, {s.entries.length} segment entries\n"

def summary (t : Tables) : String :=
  s!"{t.stateCount} states, {t.productionCount} productions\n"
    ++ segmentLine "shift" t.shift ++ segmentLine "goto" t.goto
    ++ s!"reduce: {t.reduce.countP (· ≠ absent)} entries\n"
    ++ s!"{t.shiftReduceConflicts.toNat} shift-reduce conflicts, "
    ++ s!"{t.reduceReduceConflicts.toNat} reduce-reduce conflicts"

/-- What making tables tells. -/
def notices (t : Tables) : List Notice :=
  [.tablesMade t.summary]

open Printed

/-- The tables as JSON, a record of all their parts. -/
def dump (t : Tables) : String :=
  record [
    ("n_terminals", number t.terminalCount.toNat),
    ("n_nonterminals", number t.nonterminalCount.toNat),
    ("start", number t.start.toNat),
    ("shift", segments t.shift),
    ("goto", segments t.goto),
    ("reduce", words t.reduce),
    ("productions", record [("lhs", words t.heads), ("rhs_len", words t.lengths)]),
    ("lookahead", record [
      ("words_per_row", number t.lookahead.wordsPerRow.toNat),
      ("words", list (t.lookahead.words.map fun w => number w.toNat))]),
    ("shift_reduce_conflicts", number t.shiftReduceConflicts.toNat),
    ("reduce_reduce_conflicts", number t.reduceReduceConflicts.toNat)] 0

end Tables

end ShiftReduce
