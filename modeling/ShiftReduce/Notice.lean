/-!
# Notices

What a computation tells about itself beside its result. Notices are data, listed in the order in
which they arise; `Notice.line` gives their text.
-/

namespace ShiftReduce

/-- How urgent a notice is. -/
inductive Level
  | debug
  | warning
  | error
deriving DecidableEq

def Level.name : Level → String
  | .debug => "DEBUG"
  | .warning => "WARN"
  | .error => "ERROR"

/-- A thing worth telling the author of a grammar or the user of its tables. -/
inductive Notice
  /-- a grammar source with this many lines was read -/
  | sourceRead (lines : Nat)
  /-- a production of `head` was given again and is left out -/
  | duplicateDropped (head : String)
  /-- no derivation from the start symbol produces the symbol -/
  | unreachable (name : String) (id : Nat)
  /-- the nonterminal derives itself in one step or more -/
  | derivesItself (name : String) (id : Nat)
  /-- a state with more than one action, described -/
  | conflict (description : String)
  | automatonBuilt (states reused conflicts : Nat)
  /-- tables were made, summarized -/
  | tablesMade (summary : String)
  /-- a run was rejected, because of the tables when `internal` -/
  | rejected (message : String) (internal : Bool)
deriving DecidableEq

namespace Notice

def level : Notice → Level
  | sourceRead _ | automatonBuilt .. | tablesMade _ => .debug
  | duplicateDropped _ | unreachable .. | derivesItself .. | conflict _ => .warning
  | rejected _ internal => if internal then .error else .debug

def text : Notice → String
  | sourceRead lines => s!"loaded grammar source with {lines} lines"
  | duplicateDropped head => s!"dropping duplicate production for {head}"
  | unreachable name id => s!"{name} ({id}) is unreachable"
  | derivesItself name id => s!"{name} ({id}) derives itself; parses through it cannot finish"
  | conflict description => description
  | automatonBuilt states reused conflicts =>
    s!"built {states} states ({reused} kernels reused, {conflicts} conflicts)"
  | tablesMade summary => summary
  | rejected message _ => message

/-- The level, a blank and the words. -/
def line (n : Notice) : String :=
  n.level.name ++ " " ++ n.text

end Notice

end ShiftReduce
