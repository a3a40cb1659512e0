import ShiftReduce.Distinct
import ShiftReduce.Text.Words

/-!
# Vocabularies

The symbols of a grammar are numbered: the end terminal is 0, the other terminals follow in the order
of their declaration, and the nonterminals come last. No two symbols have the same name. Names and productions
need not make a grammar, for reasons that `GrammarError` lists.
-/

namespace ShiftReduce

/-- Why names and productions do not make a grammar. -/
inductive GrammarError
  | undefinedSymbol (name : String)
  /-- a production or the start has a terminal as its head -/
  | terminalAsHead (name : String)
  | noProductions (name : String)
  | duplicateSymbol (name : String)
  /-- there is no nonterminal at all -/
  | noNonterminals
  /-- an id is not the id of a symbol -/
  | symbolOutOfRange (id : Nat)
  /-- the end terminal stands on a right-hand side -/
  | endInProduction
deriving DecidableEq

def GrammarError.message : GrammarError → String
  | undefinedSymbol name => s!"symbol `{name}` is undefined"
  | terminalAsHead name => s!"terminal `{name}` cannot be declared as a production head"
  | noProductions name => s!"nonterminal `{name}` has no productions"
  | duplicateSymbol name => s!"symbol `{name}` is declared more than once"
  | noNonterminals => "grammar declares no nonterminals"
  | symbolOutOfRange id => s!"symbol id {id} is outside of the symbol space"
  | endInProduction => "`$end` cannot appear on the right-hand side of a production"

/-- The id of the terminal that stands for the end of the input. -/
def endId : Nat := 0

/-- The name of the terminal that stands for the end of the input. -/
def endName : String := "$end"

/-- The names of the symbols, the end terminal left out. -/
structure Vocabulary where
  terminals : List String
  nonterminals : List String
  nodup : (endName :: (terminals ++ nonterminals)).Nodup
deriving DecidableEq

namespace Vocabulary

/-- The vocabulary with these names, unless a name occurs twice. -/
def of? (terminals nonterminals : List String) : Except GrammarError Vocabulary :=
  match h : firstRepeat? (endName :: (terminals ++ nonterminals)) with
  | some name => .error (.duplicateSymbol name)
  | none => .ok ⟨terminals, nonterminals, firstRepeat?_eq_none.mp h⟩

variable (v : Vocabulary)

def names : List String :=
  endName :: (v.terminals ++ v.nonterminals)

/-- The number of terminals, the end terminal among them. -/
def terminalCount : Nat :=
  v.terminals.length + 1

def size : Nat :=
  v.terminalCount + v.nonterminals.length

def isTerminal (x : Nat) : Bool :=
  x < v.terminalCount

def isNonterminal (x : Nat) : Bool :=
  v.terminalCount ≤ x && x < v.size

def terminalIds : List Nat :=
  List.range v.terminalCount

def nonterminalIds : List Nat :=
  List.range' v.terminalCount v.nonterminals.length

theorem isTerminal_iff {x : Nat} : v.isTerminal x ↔ x < v.terminalCount := by
  simp [isTerminal]

theorem isNonterminal_iff {x : Nat} : v.isNonterminal x ↔ v.terminalCount ≤ x ∧ x < v.size := by
  simp [isNonterminal]

@[simp] theorem mem_terminalIds {x : Nat} : x ∈ v.terminalIds ↔ v.isTerminal x := by
  simp [terminalIds, isTerminal]

@[simp] theorem mem_nonterminalIds {x : Nat} : x ∈ v.nonterminalIds ↔ v.isNonterminal x := by
  rw [nonterminalIds, List.mem_range'_1, isNonterminal_iff]
  rfl

theorem length_nonterminalIds_le : v.nonterminalIds.length ≤ v.size := by
  simp [nonterminalIds, size]

theorem isTerminal_endId : v.isTerminal endId :=
  v.isTerminal_iff.mpr (Nat.succ_pos _)

theorem lt_size_of_isTerminal {x : Nat} (h : v.isTerminal x) : x < v.size :=
  Nat.lt_add_right _ (v.isTerminal_iff.mp h)

theorem lt_size_of_isNonterminal {x : Nat} (h : v.isNonterminal x) : x < v.size :=
  (v.isNonterminal_iff.mp h).2

theorem isTerminal_or_isNonterminal {x : Nat} (h : x < v.size) : v.isTerminal x ∨ v.isNonterminal x := by
  rw [isTerminal_iff, isNonterminal_iff]
  omega

theorem not_isTerminal_of_isNonterminal {x : Nat} (h : v.isNonterminal x) : ¬ v.isTerminal x := by
  rw [isTerminal_iff]
  exact Nat.not_lt.mpr (v.isNonterminal_iff.mp h).1

/-- The position of a nonterminal among the nonterminals. -/
def nonterminalIndex (x : Nat) : Nat :=
  x - v.terminalCount

/-- The name of a symbol; an id without a symbol has a name of its own. -/
def name (x : Nat) : String :=
  v.names[x]?.getD "<invalid>"

def lookup? (name : String) : Option Nat :=
  v.names.findIdx? (· = name)

/-- The id of the symbol with this name, which has to exist. -/
def resolve (name : String) : Except GrammarError Nat :=
  match v.lookup? name with
  | some x => .ok x
  | none => .error (.undefinedSymbol name)

/-- The names of the symbols, parted by blanks. -/
def spell (xs : List Nat) : String :=
  Text.spaced (xs.map v.name)

end Vocabulary

end ShiftReduce
