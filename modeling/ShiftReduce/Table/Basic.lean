import ShiftReduce.Automaton.Basic
import ShiftReduce.Table.BitRows
import ShiftReduce.Table.Segments

/-!
# Tables

All that a run needs of an automaton: where each state goes on a symbol, which production it reduces
by, the head and length of each production and the terminals it reduces on. Tables may come from a
file, so their parts need not fit together; a lookup that leaves them is a `Fault`.
-/

namespace ShiftReduce

/-- The actions of an automaton as flat lists of words. -/
structure Tables where
  terminalCount : UInt32
  nonterminalCount : UInt32
  start : UInt32
  /-- where a state goes on a terminal -/
  shift : Segments
  /-- where a state goes on a nonterminal -/
  goto : Segments
  reduce : List UInt32
  heads : List UInt32
  /-- the length of the right-hand side of each production -/
  lengths : List UInt32
  /-- the terminals on which each production reduces -/
  lookahead : BitRows
  shiftReduceConflicts : UInt32
  reduceReduceConflicts : UInt32
deriving DecidableEq

namespace Tables

variable (t : Tables)

def stateCount : Nat :=
  t.reduce.length

def productionCount : Nat :=
  t.heads.length

/-- The number of symbols, which is a word like the two counts: a sum that no word can hold wraps. -/
def symbolCount : Nat :=
  (t.terminalCount + t.nonterminalCount).toNat

def isTerminal (x : Nat) : Bool :=
  x < t.terminalCount.toNat

/-- The production that a state reduces by. -/
def reduce? (state : Nat) : Option Nat :=
  (t.reduce[state]?).bind present?

/-- The number that a list holds for a production. -/
def ofProduction (ws : List UInt32) (p : Nat) : Except Fault Nat :=
  match ws[p]? with
  | some w => .ok w.toNat
  | none => .error (.noProduction p)

def head (p : Nat) : Except Fault Nat :=
  ofProduction t.heads p

/-- The length of the right-hand side of a production. -/
def length (p : Nat) : Except Fault Nat :=
  ofProduction t.lengths p

/-- Whether a production reduces on a terminal. -/
def admits (p x : Nat) : Bool :=
  t.isTerminal x && t.lookahead.contains p x

end Tables

namespace Automaton

variable (g : Grammar) (a : Automaton)

/-- The shifts that a state keeps: where reduces are preferred, it drops those on the terminals on
which its production reduces. -/
def shiftRow (s : State) : List (Nat × Nat) :=
  s.transitions.filter fun edge =>
    g.symbols.isTerminal edge.1 &&
      match a.options.onShiftReduce, a.kept? s with
      | .reduce, some p => !a.lookahead.admits p edge.1
      | _, _ => true

/-- Where a state goes on nonterminals. -/
def gotoRow (s : State) : List (Nat × Nat) :=
  s.transitions.filter fun edge => g.symbols.isNonterminal edge.1

def tables : Tables where
  terminalCount := UInt32.ofNat g.symbols.terminalCount
  nonterminalCount := UInt32.ofNat g.symbols.nonterminals.length
  start := UInt32.ofNat g.start
  shift := Segments.ofRows (a.states.map (a.shiftRow g))
  goto := Segments.ofRows (a.states.map (gotoRow g))
  reduce := a.states.map fun s => ((a.kept? s).map numberOf).getD absent
  heads := g.productions.map fun p => UInt32.ofNat p.lhs
  lengths := g.productions.map fun p => UInt32.ofNat p.rhs.length
  lookahead := BitRows.ofSets g.symbols.terminalCount a.lookahead.sets
  shiftReduceConflicts := UInt32.ofNat (a.count .shiftReduce)
  reduceReduceConflicts := UInt32.ofNat (a.count .reduceReduce)

end Automaton

def Tables.of (options : Options) (g : Grammar) : Tables :=
  (Automaton.of options g).tables g

end ShiftReduce
