import ShiftReduce.Grammar.First

/-!
# Defects of a valid grammar

Two things that a grammar may have and that its author should know: symbols that no derivation from
the start produces, and nonterminals that derive themselves. Both are found by reachability.
-/

namespace ShiftReduce.Grammar

variable (g : Grammar)

/-- The symbols that stand on a right-hand side of a nonterminal. -/
def mentions (a : Nat) : List Nat :=
  (g.bodiesOf a).flatten

/-- The symbols that a derivation from the start produces. -/
def reachable : List Nat :=
  reach g.mentions g.symbols.size [g.start]

/-- The symbols that no derivation from the start produces, ascending; never the end terminal. -/
def unreachable : List Nat :=
  let reached := g.reachable
  (List.range' 1 (g.symbols.size - 1)).filter (!reached.contains ·)

/-- The nonterminals of a string whose other symbols are all nullable. -/
def survivors (nullable body : List Nat) : List Nat :=
  body.zipIdx.filterMap fun place =>
    if g.symbols.isNonterminal place.1 && (body.eraseIdx place.2).all (nullable.contains ·) then
      some place.1
    else none

/-- The nonterminals that a nonterminal derives by one production and vanishing neighbours. -/
def unitTargets (nullable : List Nat) (a : Nat) : List Nat :=
  (g.bodiesOf a).flatMap (g.survivors nullable)

/-- The nonterminals that derive themselves in one step or more, ascending. -/
def cyclic : List Nat :=
  let next := g.unitTargets g.nullable
  g.symbols.nonterminalIds.filter fun a => (reach next g.symbols.size (next a)).contains a

/-- What to tell about the grammar: unreachable symbols, then nonterminals that derive themselves. -/
def notices : List Notice :=
  g.unreachable.map (fun x => .unreachable (g.symbols.name x) x)
    ++ g.cyclic.map fun a => .derivesItself (g.symbols.name a) a

end ShiftReduce.Grammar
