import ShiftReduce.Numbered

/-!
# Segments

The rows of a sparse table laid end to end. A state has an offset into the entries, and its row goes
from there to the next end mark; a state without entries has no offset. All numbers are 32-bit words,
and the greatest word is kept for "nothing here".
-/

namespace ShiftReduce

/-- The word that stands for a missing number. -/
def absent : UInt32 := 0xFFFFFFFF

/-- A number as a word, if it is not the word for a missing one. -/
def present? (w : UInt32) : Option Nat :=
  if w = absent then none else some w.toNat

/-- Why a run has no next state or no end: an access outside of the tables or of the stack stops the program. -/
inductive Fault
  /-- no production has this id -/
  | noProduction (id : Nat)
  /-- a segment would start behind the last entry -/
  | segmentStart (offset : Nat)
  /-- the stack has no state on top -/
  | emptyStack
  /-- more states are to be taken off the stack than there are -/
  | shortStack (count depth : Nat)
  /-- the run goes on for ever -/
  | endless
deriving DecidableEq

/-- Rows of pairs of a symbol and a state. -/
structure Segments where
  /-- where the row of each state starts -/
  offsets : List UInt32
  /-- the rows, each with an end mark behind it -/
  entries : List (UInt32 × UInt32)
deriving DecidableEq

namespace Segments

/-- A pair as it is stored. -/
def entry (p : Nat × Nat) : UInt32 × UInt32 :=
  (UInt32.ofNat p.1, numberOf p.2)

/-- Lays rows end to end, the first of them at an offset. -/
def layFrom (offset : Nat) : List (List (Nat × Nat)) → Segments
  | [] => ⟨[], []⟩
  | [] :: rows =>
    let s := layFrom offset rows
    ⟨absent :: s.offsets, s.entries⟩
  | row :: rows =>
    let s := layFrom (offset + row.length + 1) rows
    ⟨UInt32.ofNat offset :: s.offsets, row.map entry ++ (absent, absent) :: s.entries⟩

/-- The segments with these rows. -/
def ofRows (rows : List (List (Nat × Nat))) : Segments :=
  layFrom 0 rows

variable (s : Segments)

/-- The entries behind the first `offset` ones, if there are so many. -/
def behind? : Nat → List (UInt32 × UInt32) → Option (List (UInt32 × UInt32))
  | 0, entries => some entries
  | _ + 1, [] => none
  | offset + 1, _ :: entries => behind? offset entries

/-- The entries from the offset of a state on; none for a state without an offset. -/
def rest (state : Nat) : Except Fault (List (UInt32 × UInt32)) :=
  match (s.offsets[state]?).bind present? with
  | none => .ok []
  | some offset =>
    match behind? offset s.entries with
    | some entries => .ok entries
    | none => .error (.segmentStart offset)

/-- The entries up to the next end mark. -/
def upToMark : List (UInt32 × UInt32) → List (Nat × Nat)
  | [] => []
  | e :: entries => if e.1 = absent then [] else (e.1.toNat, e.2.toNat) :: upToMark entries

/-- The row of a state; empty for a state without an offset. -/
def row (state : Nat) : Except Fault (List (Nat × Nat)) :=
  (s.rest state).map upToMark

/-- The state beside a symbol, looked for up to the next end mark. -/
def scan (x : Nat) : List (UInt32 × UInt32) → Option Nat
  | [] => none
  | e :: entries =>
    if e.1 = absent then none else if x = e.1.toNat then some e.2.toNat else scan x entries

/-- The state that stands beside a symbol in the row of a state. -/
def lookup (state x : Nat) : Except Fault (Option Nat) :=
  (s.rest state).map (scan x)

theorem behind?_eq {offset : Nat} {entries : List (UInt32 × UInt32)} :
    behind? offset entries
      = if entries.length < offset then none else some (entries.drop offset) := by
  induction entries generalizing offset with
  | nil => cases offset <;> simp [behind?]
  | cons e entries ih => cases offset <;> simp [behind?, ih]

theorem scan_eq (x : Nat) (entries : List (UInt32 × UInt32)) :
    scan x entries = (upToMark entries).lookup x := by
  induction entries with
  | nil => rfl
  | cons e entries ih =>
    by_cases he : e.1 = absent
    · simp [scan, upToMark, he]
    · simp only [scan, upToMark, he, if_false, List.lookup_cons, ih]
      by_cases hx : x = e.1.toNat
      · simp [hx]
      · simp [hx, beq_false_of_ne hx]

/-- What is looked up stands in the row. -/
theorem lookup_eq (state x : Nat) : s.lookup state x = (s.row state).map (·.lookup x) := by
  unfold lookup row
  cases s.rest state <;> simp [Except.map, scan_eq]

/-- The number of states with an offset. -/
def occupied : Nat :=
  s.offsets.countP (· ≠ absent)

end Segments

end ShiftReduce
