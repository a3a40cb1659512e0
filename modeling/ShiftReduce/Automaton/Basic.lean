import ShiftReduce.Automaton.Conflict

/-!
# Automata

The canonical collection of a grammar with the decisions that build options make in its states.
-/

namespace ShiftReduce

structure Automaton where
  options : Options
  states : List State
  /-- how many edges led to a state met before -/
  reused : Nat
  lookahead : Lookahead
  /-- by ascending state -/
  conflicts : List Conflict
deriving DecidableEq

namespace Automaton

def of (options : Options) (g : Grammar) : Automaton :=
  let c := Collection.of g
  let l := Lookahead.of options.method g
  { options := options
    states := c.states
    reused := c.reused
    lookahead := l
    conflicts := c.states.zipIdx.flatMap fun s => s.1.conflicts g l s.2 }

variable (a : Automaton)

def transition? (state x : Nat) : Option Nat :=
  (a.states[state]?).bind (·.transition? x)

/-- The state with exactly this kernel. -/
def find? (kernel : ItemSet) : Option Nat :=
  a.states.findIdx? (·.kernel = kernel)

/-- The production that the options keep in a state. -/
def kept? (s : State) : Option Nat :=
  a.options.onReduceReduce.keep s.candidates

/-- The production kept in the state with this number. -/
def reduce? (state : Nat) : Option Nat :=
  (a.states[state]?).bind a.kept?

def count (kind : ConflictKind) : Nat :=
  a.conflicts.countP (·.kind = kind)

/-- The symbols on the way back to state 0, nearest first, at most `steps` of them. -/
def wayBack : Nat → Nat → List Nat
  | 0, _ => []
  | steps + 1, state =>
    match (a.states[state]?).bind (·.parent) with
    | none => []
    | some (parent, x) => x :: wayBack steps parent

/-- The symbols that lead from state 0 to a state, along the edges that first met the states. -/
def path (state : Nat) : List Nat :=
  (a.wayBack a.states.length state).reverse

/-- What building tells: the conflicts, then the size. -/
def notices (g : Grammar) : List Notice :=
  a.conflicts.map (fun c => .conflict (c.describe g))
    ++ [.automatonBuilt a.states.length a.reused a.conflicts.length]

end Automaton

end ShiftReduce
