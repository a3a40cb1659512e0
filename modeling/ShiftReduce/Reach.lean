import ShiftReduce.Distinct

/-!
# Reachability in a finite graph

A graph is given by the successors of each node. `reach next size seeds` lists, nearest first, the
nodes that `seeds` lead to; `size` bounds the number of nodes. Each round adds the successors that
are new, so a round that adds nothing ends the search and `size` rounds are enough.
-/

namespace ShiftReduce

variable {α : Type} [DecidableEq α]

/-- The successors of `frontier` that are not in `seen`. -/
def fresh (next : α → List α) (frontier seen : List α) : List α :=
  distinct ((frontier.flatMap next).filter (· ∉ seen))

/-- At most `rounds` rounds from `frontier`, the nodes that the last round added to `seen`. -/
def reachFrom (next : α → List α) : Nat → List α → List α → List α
  | 0, _, seen => seen
  | rounds + 1, frontier, seen =>
    match fresh next frontier seen with
    | [] => seen
    | new => reachFrom next rounds new (seen ++ new)

/-- The nodes that `seeds` lead to in any number of steps, nearest first. -/
def reach (next : α → List α) (size : Nat) (seeds : List α) : List α :=
  reachFrom next size (distinct seeds) (distinct seeds)

end ShiftReduce
