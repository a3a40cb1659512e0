import ShiftReduce.Grammar.First

/-!
# FOLLOW sets

The terminals that can stand right after a nonterminal. What follows a nonterminal at one place of a
right-hand side begins there, and where the rest of the right-hand side can vanish, what follows the
head follows the nonterminal too. FOLLOW collects what begins behind each nonterminal that is reached
by passing to such heads.

The listing of the symbols has one line per symbol: its id in a column of four, then its name. A nonterminal has
its name in a column of sixteen, its FIRST and FOLLOW sets, and a mark when it is nullable.
-/

namespace ShiftReduce

/-- Each symbol of a string with the symbols after it. -/
def withRests : List Nat → List (Nat × List Nat)
  | [] => []
  | x :: xs => (x, xs) :: withRests xs

namespace Grammar

variable (g : Grammar) (f : FirstTable)

/-- For every place of a symbol on a right-hand side: the head and the symbols after the place. -/
def placesOf (a : Nat) : List (Nat × List Nat) :=
  g.productions.flatMap fun p =>
    (withRests p.rhs).filterMap fun place => if place.1 == a then some (p.lhs, place.2) else none

/-- The terminals that begin right behind a place of the nonterminal; the end terminal stands behind
the start. -/
def behind (a : Nat) : List Nat :=
  let rests := (g.placesOf a).map (·.2)
  g.symbols.terminalIds.filter fun t =>
    (t == endId && a == g.start) || rests.any (f.begins t)

/-- The heads whose followers a nonterminal takes over: the rest behind it can vanish. -/
def trailedBy (a : Nat) : List Nat :=
  (g.placesOf a).filterMap fun place => if f.vanishes place.2 then some place.1 else none

end Grammar

/-- The FOLLOW set of every nonterminal, by its position among the nonterminals. -/
structure FollowTable where
  terminalCount : Nat
  sets : List (List Nat)

namespace FollowTable

def of (g : Grammar) (f : FirstTable) : FollowTable :=
  let behind := g.symbols.nonterminalIds.map fun a => g.behind f a
  let set := fun a =>
    let reached := reach (g.trailedBy f) g.symbols.size [a]
    g.symbols.terminalIds.filter fun t =>
      reached.any fun b => (behind[g.symbols.nonterminalIndex b]?.getD []).contains t
  ⟨g.symbols.terminalCount, g.symbols.nonterminalIds.map set⟩

def follow (w : FollowTable) (a : Nat) : List Nat :=
  w.sets[a - w.terminalCount]?.getD []

end FollowTable

namespace Grammar

def nonterminalLine (g : Grammar) (f : FirstTable) (w : FollowTable) (a : Nat) : String :=
  let name := g.symbols.name
  Text.padRight 4 (toString a) ++ Text.padRight 16 (name a)
    ++ " first[" ++ g.symbols.spell (f.first a)
    ++ "] follow[" ++ g.symbols.spell (w.follow a) ++ "]"
    ++ (if f.isNullable a then " nullable" else "")

/-- The lines of all symbols, by id. -/
def listing (g : Grammar) : String :=
  let f := FirstTable.of g
  let w := FollowTable.of g f
  Text.unlines <|
    g.symbols.terminalIds.map (fun t => Text.padRight 4 (toString t) ++ g.symbols.name t)
      ++ g.symbols.nonterminalIds.map (g.nonterminalLine f w)

end Grammar

end ShiftReduce
