/-!
# Build options

How reduces are restricted, and which of several actions is kept in a state.
-/

namespace ShiftReduce

/-- How automata are built: the terminals on which a complete production reduces. -/
inductive Method
  /-- on every terminal -/
  | lr0
  /-- on the terminals that can follow its head -/
  | slr
deriving DecidableEq

/-- What is kept of a shift and a reduce on the same terminal. -/
inductive ShiftReduceChoice
  | shift
  | reduce
deriving DecidableEq

/-- What is kept of several complete productions. -/
inductive ReduceReduceChoice
  | first
  | last
deriving DecidableEq

structure Options where
  method : Method := .lr0
  onShiftReduce : ShiftReduceChoice := .shift
  onReduceReduce : ReduceReduceChoice := .first
deriving DecidableEq

/-- The production kept of those that are complete in a state. -/
def ReduceReduceChoice.keep (choice : ReduceReduceChoice) (candidates : List Nat) : Option Nat :=
  match choice with
  | .first => candidates.head?
  | .last => candidates.getLast?

end ShiftReduce
