import ShiftReduce.Automaton.Basic

/-!
# The report on an automaton

Every state with the symbols that lead to it, its items and their actions, and then the conflicts. An
item of the kernel has a mark before it, the item itself stands in a column of thirty-two, and its
action follows.
-/

namespace ShiftReduce.Automaton

variable (g : Grammar) (a : Automaton)

/-- An edge by the state at its one end and its symbol. -/
def edgeText (state x : Nat) : String :=
  s!"goto(A{state}, " ++ g.symbols.name x ++ ")"

/-- What a state does with an item: reduce, or go on and perhaps shift. -/
def actionText (s : State) (i : Item) : String :=
  match i.next? g with
  | none =>
    s!" reduce({i.production})" ++ if a.kept? s = some i.production then "" else " [discarded]"
  | some x =>
    let goes := match s.transition? x with
      | some target => " " ++ edgeText g target x
      | none => ""
    goes ++ if g.symbols.isTerminal x then "\tshift" else ""

def itemLine (s : State) (i : Item) : String :=
  (if i ∈ s.kernel then "I:" else "") ++ "\t" ++ Text.padRight 32 (i.display g)
    ++ a.actionText g s i

/-- The line that opens a state: the path to it and the edge that first led to it. -/
def headLine (s : State) (id : Nat) : String :=
  s!"A{id}: V[" ++ g.symbols.spell (a.path id) ++ "]"
    ++ match s.parent with
      | some (parent, x) => " = " ++ edgeText g parent x
      | none => ""

/-- The lines of a state and an empty line. -/
def stateLines (s : State) (id : Nat) : List String :=
  a.headLine g s id :: s.items.map (a.itemLine g s) ++ [""]

def report : String :=
  Text.unlines (a.states.zipIdx.flatMap (fun s => a.stateLines g s.1 s.2)
    ++ a.conflicts.map (·.describe g))

end ShiftReduce.Automaton
