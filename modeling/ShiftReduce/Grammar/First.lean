import ShiftReduce.Grammar.Basic
import ShiftReduce.Reach

/-!
# Nullable nonterminals and FIRST sets

The nonterminals that derive the empty string are found round by round: a round keeps the nonterminals
with a production whose symbols were all found before. A round that changes nothing is the last, and
there is one within as many rounds as there are nonterminals.

FIRST of a symbol is the set of the terminals that can begin what it derives. A nonterminal leads to every
symbol of a right-hand side that only nullable symbols stand before, and the terminals in FIRST are those
that a symbol leads to in any number of such steps.
-/

namespace ShiftReduce

/-- Applies `f` until nothing changes, at most `rounds` times. -/
def settle (f : List Nat → List Nat) : Nat → List Nat → List Nat
  | 0, xs => xs
  | rounds + 1, xs =>
    let next := f xs
    if next = xs then xs else settle f rounds next

namespace Grammar

variable (g : Grammar)

/-- The nonterminals with a production whose symbols are all in `found`, ascending. -/
def nullableRound (found : List Nat) : List Nat :=
  g.symbols.nonterminalIds.filter fun a =>
    g.productions.any fun p => p.lhs == a && p.rhs.all (found.contains ·)

/-- The nonterminals that derive the empty string, ascending. -/
def nullable : List Nat :=
  settle g.nullableRound g.symbols.nonterminals.length []

end Grammar

/-- The symbols of a string up to the first that is not in `nullable`, and this one. -/
def leading (nullable : List Nat) : List Nat → List Nat
  | [] => []
  | x :: xs => if nullable.contains x then x :: leading nullable xs else [x]

/-- The nullable nonterminals of a grammar and the FIRST set of every symbol, by id. -/
structure FirstTable where
  nullable : List Nat
  sets : List (List Nat)

namespace FirstTable

def of (g : Grammar) : FirstTable :=
  let nullable := g.nullable
  let next := fun a => (g.bodiesOf a).flatMap (leading nullable)
  let set := fun x =>
    let reached := reach next g.symbols.size [x]
    g.symbols.terminalIds.filter (reached.contains ·)
  ⟨nullable, (List.range g.symbols.size).map set⟩

variable (f : FirstTable)

def first (x : Nat) : List Nat :=
  f.sets[x]?.getD []

def isNullable (x : Nat) : Bool :=
  f.nullable.contains x

/-- Whether every symbol of a string derives the empty string. -/
def vanishes (xs : List Nat) : Bool :=
  xs.all f.isNullable

/-- Whether a terminal can begin what a string derives. -/
def begins (t : Nat) (xs : List Nat) : Bool :=
  (leading f.nullable xs).any fun x => (f.first x).contains t

end FirstTable

/-- FIRST of a string: terminals, ascending. -/
def Grammar.firstOf (g : Grammar) (f : FirstTable) (xs : List Nat) : List Nat :=
  g.symbols.terminalIds.filter (f.begins · xs)

end ShiftReduce
