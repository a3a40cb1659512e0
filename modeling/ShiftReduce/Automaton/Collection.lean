import ShiftReduce.Item.Basic
import Std.Data.TreeMap

/-!
# The canonical collection

The states of the automaton of a grammar. A state is known by its kernel: state 0 has the starting
items of the start symbol, and every further kernel arises by moving the dot over one symbol in a
closed state. States are numbered in the order in which they are first met, state by state and symbol
by symbol. `kernelBound` bounds their number, so the search below ends by itself.
-/

namespace ShiftReduce

/-- A kernel with the state and symbol that first led to it; the first kernel has none. -/
structure Seed where
  kernel : ItemSet
  parent : Option (Nat × Nat)
deriving DecidableEq

/-- A state with its edges. -/
structure State where
  /-- the items that tell the state from all others -/
  kernel : ItemSet
  /-- the items that closure adds -/
  added : ItemSet
  /-- the states that the symbols lead to, by ascending symbol -/
  transitions : List (Nat × Nat)
  /-- the state and symbol that first led here -/
  parent : Option (Nat × Nat)
  /-- the productions complete here, in the order of the items -/
  candidates : List Nat
deriving DecidableEq

namespace State

def items (s : State) : List Item :=
  s.kernel.items ++ s.added.items

def transition? (s : State) (x : Nat) : Option Nat :=
  s.transitions.lookup x

end State

namespace Grammar

variable (g : Grammar)

/-- The items that have a symbol behind their dot, each behind that symbol. -/
def waiting (items : List Item) : List (Nat × Item) :=
  items.filterMap fun i => (i.next? g).map fun x => (x, i)

/-- The symbols that items wait for, ascending. -/
def nextSymbols (waiting : List (Nat × Item)) : List Nat :=
  let symbols := distinct (waiting.map Prod.fst)
  (List.range g.symbols.size).filter (symbols.contains ·)

/-- The items that wait for a symbol, moved over it. -/
def moveOver (waiting : List (Nat × Item)) (x : Nat) : ItemSet :=
  ItemSet.ofList ((waiting.filter (·.1 == x)).map (·.2.shifted))

/-- The kernels that a closed set of items leads to, each with its symbol, by ascending symbol. -/
def successors (items : List Item) : List (Nat × ItemSet) :=
  let waiting := g.waiting items
  (g.nextSymbols waiting).map fun x => (x, moveOver waiting x)

/-- The kernels that a kernel leads to. -/
def successorsOf (kernel : ItemSet) : List (Nat × ItemSet) :=
  g.successors (g.closure kernel).items

/-- The kernel of state 0. -/
def rootKernel : ItemSet :=
  ItemSet.ofList ((g.productionsOf g.start).map Item.atStart)

def allItems : List Item :=
  g.productions.zipIdx.flatMap fun p => (List.range (p.1.rhs.length + 1)).map (Item.mk p.2)

/-- The number of sets of items of the grammar; there are no more kernels. -/
def kernelBound : Nat :=
  Nat.pow 2 g.allItems.length

end Grammar

/-- The kernels met so far, in the order of their states, and how often one was met again. -/
structure Survey where
  seeds : Array Seed
  /-- the numbers of the states by the codes of their kernels -/
  numbers : Std.TreeMap (List Nat) Nat
  numbers_eq (kernel : ItemSet) : numbers[kernel.code]? = seeds.toList.findIdx? (·.kernel = kernel)
  reused : Nat

namespace Survey

/-- Only the kernel of state 0 met. -/
def first (kernel : ItemSet) : Survey where
  seeds := #[⟨kernel, none⟩]
  numbers := (∅ : Std.TreeMap (List Nat) Nat).insert kernel.code 0
  numbers_eq k := by
    by_cases h : kernel = k <;> simp [ItemSet.code_inj, h]
  reused := 0

/-- The number of the state with this kernel. -/
def find? (v : Survey) (kernel : ItemSet) : Option Nat :=
  v.numbers[kernel.code]?

theorem find?_eq (v : Survey) (kernel : ItemSet) :
    v.find? kernel = v.seeds.toList.findIdx? (·.kernel = kernel) :=
  v.numbers_eq kernel

/-- With a kernel of a new state. -/
def add (v : Survey) (seed : Seed) (h : v.find? seed.kernel = none) : Survey where
  seeds := v.seeds.push seed
  numbers := v.numbers.insert seed.kernel.code v.seeds.size
  numbers_eq k := by
    have hk := v.numbers_eq k
    by_cases e : seed.kernel = k
    · subst e
      simp [List.findIdx?_append, ← hk, show v.numbers[seed.kernel.code]? = none from h]
    · simp [Std.TreeMap.getElem?_insert, ItemSet.code_inj, List.findIdx?_append, ← hk, e]
  reused := v.reused

/-- Meets a kernel that the state `i` leads to. -/
def meet (i : Nat) (v : Survey) (edge : Nat × ItemSet) : Survey :=
  match h : v.find? edge.2 with
  | some _ => { v with reused := v.reused + 1 }
  | none => v.add ⟨edge.2, some (i, edge.1)⟩ h

/-- Meets what the states from `i` on lead to, at most `rounds` states. -/
def exploreFrom (g : Grammar) : Nat → Nat → Survey → Survey
  | 0, _, v => v
  | rounds + 1, i, v =>
    match v.seeds[i]? with
    | none => v
    | some seed => exploreFrom g rounds (i + 1) ((g.successorsOf seed.kernel).foldl (meet i) v)

def of (g : Grammar) : Survey :=
  exploreFrom g g.kernelBound 0 (first g.rootKernel)

/-- The state that grows from a seed. -/
def state (g : Grammar) (v : Survey) (seed : Seed) : State :=
  let closure := g.closure seed.kernel
  let added := closure.diff seed.kernel
  { kernel := seed.kernel
    added := added
    transitions := (g.successors closure.items).filterMap fun edge =>
      (v.find? edge.2).map fun target => (edge.1, target)
    parent := seed.parent
    candidates := (seed.kernel.items ++ added.items).filterMap fun i =>
      if i.isComplete g then some i.production else none }

end Survey

/-- The states of the automaton of a grammar, and how many edges led to a state met before. -/
structure Collection where
  states : List State
  reused : Nat
deriving DecidableEq

def Collection.of (g : Grammar) : Collection :=
  let v := Survey.of g
  ⟨v.seeds.toList.map (v.state g), v.reused⟩

end ShiftReduce
