import ShiftReduce.Automaton.Collection
import ShiftReduce.Automaton.Options
import ShiftReduce.Grammar.Follow

/-!
# Conflicts

A state where more than one action is possible. A conflict is reported and never stops the making of
tables; the build options say which action is kept.
-/

namespace ShiftReduce

/-- Which actions compete. -/
inductive ConflictKind
  | shiftReduce
  | reduceReduce
deriving DecidableEq

def ConflictKind.name : ConflictKind → String
  | .shiftReduce => "shift-reduce"
  | .reduceReduce => "reduce-reduce"

structure Conflict where
  state : Nat
  kind : ConflictKind
  /-- the competing productions, the complete ones first -/
  productions : List Nat
  /-- the terminals on which the actions collide -/
  symbols : List Nat
deriving DecidableEq

/-- The conflict with its terminals and productions in names. -/
def Conflict.describe (g : Grammar) (c : Conflict) : String :=
  let terminals :=
    if c.symbols.isEmpty then "" else " on " ++ ", ".intercalate (c.symbols.map g.symbols.name)
  s!"state {c.state} has a " ++ c.kind.name ++ " conflict" ++ terminals ++ ":"
    ++ String.join (c.productions.map fun p => "\n\t" ++ toString p ++ " " ++ g.displayId p)

/-- The terminals on which each production may reduce, ascending, by production. -/
def Method.sets (method : Method) (g : Grammar) : List (List Nat) :=
  match method with
  | .lr0 => g.productions.map fun _ => g.symbols.terminalIds
  | .slr =>
    let w := FollowTable.of g (FirstTable.of g)
    g.productions.map fun p => w.follow p.lhs

/-- What conflicts are found from: a grammar, a method and its sets. -/
structure Lookahead where
  method : Method
  sets : List (List Nat)
deriving DecidableEq

namespace Lookahead

def of (method : Method) (g : Grammar) : Lookahead :=
  ⟨method, method.sets g⟩

variable (l : Lookahead)

def set (p : Nat) : List Nat :=
  l.sets[p]?.getD []

/-- Whether a production may reduce on a terminal. -/
def admits (p t : Nat) : Bool :=
  (l.set p).contains t

end Lookahead

namespace State

variable (g : Grammar) (l : Lookahead) (s : State)

/-- The terminals on which at least two of the productions complete in the state reduce. -/
def overlap : List Nat :=
  g.symbols.terminalIds.filter fun t => 2 ≤ s.candidates.countP (l.admits · t)

/-- The conflict between several complete productions. Without lookahead they compete
whatever comes next, and no terminals are named. -/
def reduceReduce? (id : Nat) : Option Conflict :=
  if s.candidates.length ≤ 1 then none
  else
    let symbols := match l.method with
      | .lr0 => []
      | .slr => s.overlap g l
    some ⟨id, .reduceReduce, s.candidates, symbols⟩

/-- The terminals that the state shifts and a complete production reduces on. -/
def colliding : List Nat :=
  (g.nextSymbols (g.waiting s.items)).filter fun t =>
    g.symbols.isTerminal t && s.candidates.any (l.admits · t)

/-- The productions of the items that expect the symbol, ascending. -/
def shifters (x : Nat) : List Nat :=
  (Grammar.moveOver (g.waiting s.items) x).items.map (·.production)

/-- The conflict between complete productions and shifts. -/
def shiftReduce? (id : Nat) : Option Conflict :=
  let symbols := s.colliding g l
  if symbols.isEmpty then none
  else some ⟨id, .shiftReduce, distinct (s.candidates ++ symbols.flatMap (s.shifters g)), symbols⟩

def conflicts (id : Nat) : List Conflict :=
  (s.reduceReduce? g l id).toList ++ (s.shiftReduce? g l id).toList

end State

end ShiftReduce
