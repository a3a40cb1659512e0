import ShiftReduce.Grammar.Defects

/-!
# Drafts

A grammar in the making, given by names: declarations of terminals and nonterminals and rules between
names, in any order. `Draft.build` turns the names into ids and drops a production that was given
before; the first nonterminal becomes the start.
-/

namespace ShiftReduce

structure Rule where
  head : String
  body : List String
deriving DecidableEq

/-- The names and rules collected so far. -/
structure Draft where
  terminals : List String
  nonterminals : List String
  rules : List Rule
deriving DecidableEq

/-- The production that a rule names; the head is resolved first. -/
def Vocabulary.production? (v : Vocabulary) (r : Rule) : Except GrammarError Production := do
  let lhs ← v.resolve r.head
  let rhs ← r.body.mapM v.resolve
  return ⟨lhs, rhs⟩

namespace Draft

def empty : Draft :=
  ⟨[], [], []⟩

def terminal (d : Draft) (name : String) : Draft :=
  { d with terminals := d.terminals ++ [name] }

/-- Declares a nonterminal; one that is declared already stays where it is. -/
def nonterminal (d : Draft) (name : String) : Draft :=
  if name ∈ d.nonterminals then d else { d with nonterminals := d.nonterminals ++ [name] }

/-- Adds a rule; a head that is no terminal is declared as a nonterminal. -/
def rule (d : Draft) (r : Rule) : Draft :=
  let d := if r.head ∈ d.terminals then d else d.nonterminal r.head
  { d with rules := d.rules ++ [r] }

variable (d : Draft)

def vocabulary : Except GrammarError Vocabulary :=
  Vocabulary.of? d.terminals d.nonterminals

/-- The grammar that the draft describes, or its first fault. -/
def build : Except GrammarError Grammar := do
  let v ← d.vocabulary
  let productions ← d.rules.mapM v.production?
  Grammar.of? v (distinct productions) v.terminalCount

/-- The productions of the rules before the first that does not resolve. -/
def resolved (v : Vocabulary) : List Rule → List Production
  | [] => []
  | r :: rs =>
    match v.production? r with
    | .ok p => p :: resolved v rs
    | .error _ => []

/-- What building tells: the repeated productions, and the defects of a valid grammar. -/
def notices : List Notice :=
  match d.vocabulary with
  | .error _ => []
  | .ok v =>
    (repeats (resolved v d.rules)).map (fun p => .duplicateDropped (v.name p.lhs))
      ++ match d.build with
        | .ok g => g.notices
        | .error _ => []

end Draft

end ShiftReduce
