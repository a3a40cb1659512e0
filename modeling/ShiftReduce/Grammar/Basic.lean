import ShiftReduce.Grammar.Vocabulary
import ShiftReduce.Notice

/-!
# Grammars

A context-free grammar over a vocabulary. A `Grammar` is valid by its type: the start is a
nonterminal, every production has a nonterminal as its head and only symbols other than the end
terminal on its right-hand side, and every nonterminal has a production. `Grammar.of?` checks this
and reports the first fault. Productions are known by their position.
-/

namespace ShiftReduce

/-- A rule that replaces the nonterminal `lhs` by the symbols `rhs`. -/
structure Production where
  lhs : Nat
  rhs : List Nat
deriving DecidableEq

/-- What keeps a symbol from standing on a right-hand side. -/
def Vocabulary.bodyFault? (v : Vocabulary) (x : Nat) : Option GrammarError :=
  if v.size ≤ x then some (.symbolOutOfRange x)
  else if x = endId then some .endInProduction
  else none

/-- What keeps a production from being one over the symbols: the head is looked at first. -/
def Production.fault? (v : Vocabulary) (p : Production) : Option GrammarError :=
  if v.size ≤ p.lhs then some (.symbolOutOfRange p.lhs)
  else if v.isTerminal p.lhs then some (.terminalAsHead (v.name p.lhs))
  else p.rhs.findSome? v.bodyFault?

/-- The production replaces a nonterminal by symbols other than the end terminal. -/
structure Production.Fits (v : Vocabulary) (p : Production) : Prop where
  lhs : v.isNonterminal p.lhs
  rhs : ∀ x ∈ p.rhs, x ≠ endId ∧ x < v.size

theorem Production.fits_of_fault? {v : Vocabulary} {p : Production} (h : p.fault? v = none) :
    p.Fits v := by
  unfold Production.fault? at h
  split at h
  · cases h
  split at h
  · cases h
  refine ⟨?_, fun x hx => ?_⟩
  · simp_all [Vocabulary.isTerminal, Vocabulary.isNonterminal]
  · have hb := List.findSome?_eq_none_iff.mp h x hx
    unfold Vocabulary.bodyFault? at hb
    split at hb
    · cases hb
    split at hb
    · cases hb
    omega

/-- A valid context-free grammar. -/
structure Grammar where
  symbols : Vocabulary
  productions : List Production
  start : Nat
  start_nonterminal : symbols.isNonterminal start
  fits : ∀ p ∈ productions, p.Fits symbols
  headed : ∀ a ∈ symbols.nonterminalIds, ∃ p ∈ productions, p.lhs = a

namespace Grammar

/-- The first fault of symbols, productions and a start: no nonterminals, a start that is none, a
faulty production, a nonterminal without a production. -/
def fault? (v : Vocabulary) (productions : List Production) (start : Nat) : Option GrammarError :=
  if v.nonterminals.isEmpty then some .noNonterminals
  else if !v.isNonterminal start then some (.terminalAsHead (v.name start))
  else match productions.findSome? (·.fault? v) with
    | some fault => some fault
    | none =>
      (v.nonterminalIds.find? fun a => !productions.any (·.lhs == a)).map fun a =>
        .noProductions (v.name a)

section

variable {v : Vocabulary} {productions : List Production} {start : Nat}

theorem isNonterminal_of_fault? (h : fault? v productions start = none) :
    v.isNonterminal start := by
  unfold fault? at h
  split at h
  · cases h
  split at h
  · cases h
  · simp_all

theorem fits_of_fault? (h : fault? v productions start = none) :
    ∀ p ∈ productions, p.Fits v := by
  unfold fault? at h
  split at h
  · cases h
  split at h
  · cases h
  split at h
  · cases h
  · next hp => exact fun p hm => Production.fits_of_fault? (List.findSome?_eq_none_iff.mp hp p hm)

theorem headed_of_fault? (h : fault? v productions start = none) :
    ∀ a ∈ v.nonterminalIds, ∃ p ∈ productions, p.lhs = a := by
  unfold fault? at h
  split at h
  · cases h
  split at h
  · cases h
  split at h
  · cases h
  · intro a ha
    simp only [Option.map_eq_none_iff, List.find?_eq_none] at h
    simpa using h a ha

end

/-- The grammar with these symbols, productions and start, or the first fault. -/
def of? (v : Vocabulary) (productions : List Production) (start : Nat) :
    Except GrammarError Grammar :=
  match h : fault? v productions start with
  | some fault => .error fault
  | none =>
    .ok ⟨v, productions, start, isNonterminal_of_fault? h, fits_of_fault? h, headed_of_fault? h⟩

variable (g : Grammar)

def productionIds : List Nat :=
  List.range g.productions.length

/-- The right-hand side of a production; empty for an id without a production. -/
def rhs (p : Nat) : List Nat :=
  match g.productions[p]? with
  | some production => production.rhs
  | none => []

/-- The ids of the productions with a head that satisfies `is`, ascending. -/
def idsWhere (is : Nat → Bool) : List Nat :=
  g.productions.zipIdx.filterMap fun p => if is p.1.lhs then some p.2 else none

def productionsOf (a : Nat) : List Nat :=
  g.idsWhere (· == a)

/-- The right-hand sides of a nonterminal, in the order of their productions. -/
def bodiesOf (a : Nat) : List (List Nat) :=
  (g.productions.filter (·.lhs == a)).map (·.rhs)

/-- The production in names, with a sign for an empty right-hand side. -/
def display (p : Production) : String :=
  let body := if p.rhs.isEmpty then ["%empty"] else p.rhs.map g.symbols.name
  Text.spaced (g.symbols.name p.lhs :: "->" :: body)

/-- The production with this id in names. -/
def displayId (p : Nat) : String :=
  match g.productions[p]? with
  | some production => g.display production
  | none => ""

end Grammar

end ShiftReduce
