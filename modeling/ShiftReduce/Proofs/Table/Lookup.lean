import ShiftReduce.Proofs.Automaton.Items
import ShiftReduce.Proofs.Table.Words
import ShiftReduce.Table.Basic

/-!
# Tables say what their automaton says

Every lookup in the tables of a grammar gives what the automaton has for the state: the edges on
nonterminals, the edges on terminals but for those that a preferred reduce takes, the kept production and
its lookahead. The automaton must be small enough for its numbers to be kept in words (`Automaton.Small`);
no lookup is a fault then.
-/

namespace ShiftReduce

/-- A filter that looks at keys alone, here beside any value `b`, keeps or drops all that a key leads to. -/
theorem lookup_filter {β : Type} {keeps : Nat × β → Bool} (b : β) (h : ∀ e, keeps e = keeps (e.1, b))
    (es : List (Nat × β)) (x : Nat) : (es.filter keeps).lookup x = if keeps (x, b) then es.lookup x else none := by
  induction es with
  | nil => simp
  | cons e es ih =>
    obtain ⟨y, c⟩ := e
    rw [List.filter_cons, List.lookup_cons, h (y, c)]
    by_cases hx : x = y
    · subst hx
      cases hk : keeps (x, b) <;> simp [hk, ih]
    · have hne : (x == y) = false := beq_false_of_ne hx
      cases keeps (y, b) <;> simp [ih, List.lookup_cons, hne]

namespace Automaton

/-- Everything that the tables of an automaton count is below the word that is kept for a missing number.
Numbers are cut to words without a look at their size, so tables of more than that are those of nothing. -/
structure Small (g : Grammar) (a : Automaton) : Prop where
  symbols : g.symbols.size < wordLimit
  productions : g.productions.length < wordLimit
  bodies : ∀ p ∈ g.productions, p.rhs.length < wordLimit
  states : a.states.length < wordLimit
  shift : (a.tables g).shift.entries.length < wordLimit
  goto : (a.tables g).goto.entries.length < wordLimit

theorem small_iff {g : Grammar} {a : Automaton} : a.Small g ↔ g.symbols.size < wordLimit ∧
    g.productions.length < wordLimit ∧ (∀ p ∈ g.productions, p.rhs.length < wordLimit) ∧
    a.states.length < wordLimit ∧ (a.tables g).shift.entries.length < wordLimit ∧
    (a.tables g).goto.entries.length < wordLimit :=
  ⟨fun h => ⟨h.1, h.2, h.3, h.4, h.5, h.6⟩, fun ⟨h₁, h₂, h₃, h₄, h₅, h₆⟩ => ⟨h₁, h₂, h₃, h₄, h₅, h₆⟩⟩

instance (g : Grammar) (a : Automaton) : Decidable (a.Small g) :=
  decidable_of_iff _ small_iff.symm

theorem Small.terminalCount_lt {g : Grammar} {a : Automaton} (h : a.Small g) : g.symbols.terminalCount < wordLimit :=
  Nat.lt_of_le_of_lt (Nat.le_add_right _ _) h.symbols

/-- What a table file counts of an automaton is counted in words. A count may be the greatest word, since the
numbers below it are not taken for a missing one. -/
structure Sized (g : Grammar) (a : Automaton) : Prop where
  symbols : g.symbols.size < UInt32.size
  productions : g.productions.length < UInt32.size
  states : a.states.length < UInt32.size
  shift : (a.tables g).shift.entries.length < UInt32.size
  goto : (a.tables g).goto.entries.length < UInt32.size

theorem Small.sized {g : Grammar} {a : Automaton} (h : a.Small g) : a.Sized g where
  symbols := h.symbols.trans (by decide)
  productions := h.productions.trans (by decide)
  states := h.states.trans (by decide)
  shift := h.shift.trans (by decide)
  goto := h.goto.trans (by decide)

/-- Where a state goes on a terminal once the options have decided between shifting and reducing. -/
def shift? (g : Grammar) (a : Automaton) (n x : Nat) : Option Nat :=
  (a.states[n]?).bind fun s => (a.shiftRow g s).lookup x

variable {g : Grammar} {a : Automaton} {n m x : Nat}

theorem shift?_eq_some : a.shift? g n x = some m ↔ g.symbols.isTerminal x ∧ a.transition? n x = some m ∧
    (a.options.onShiftReduce = .reduce → ∀ q, a.reduce? n = some q → ¬ a.lookahead.admits q x) := by
  simp only [shift?, transition?, reduce?, Option.bind_eq_some_iff]
  cases hs : a.states[n]? with
  | none => simp
  | some s =>
    simp only [Option.some.injEq, exists_eq_left']
    rw [shiftRow, lookup_filter 0 fun _ => rfl, Option.ite_none_right_eq_some, Bool.and_eq_true, and_assoc]
    refine and_congr_right fun _ => ?_
    rw [and_comm, State.transition?]
    refine and_congr_right fun _ => ?_
    cases a.options.onShiftReduce <;> cases a.kept? s <;> simp

end Automaton

namespace Tables

variable {g : Grammar} {options : Options} {n x q : Nat} {p : Production}

theorem shift_lookup (h : (Automaton.of options g).Small g) :
    (Tables.of options g).shift.lookup n x = .ok ((Automaton.of options g).shift? g n x) := by
  change (Segments.ofRows ((Automaton.of options g).states.map _)).lookup n x = _
  rw [Automaton.shift?]
  cases hs : (Automaton.of options g).states[n]? with
  | none => exact Segments.lookup_ofRows_of_none (by rw [List.getElem?_map, hs]; rfl)
  | some s =>
    refine Segments.lookup_ofRows (by rw [List.getElem?_map, hs]; rfl) h.shift fun e he => ?_
    obtain ⟨⟨-, h₁⟩, h₂⟩ := Automaton.edge_fits hs (List.mem_filter.mp he).1
    exact ⟨h₁.trans h.symbols, h₂.trans h.states⟩

theorem goto_lookup (h : (Automaton.of options g).Small g) : (Tables.of options g).goto.lookup n x =
    .ok (if g.symbols.isNonterminal x then (Automaton.of options g).transition? n x else none) := by
  change (Segments.ofRows ((Automaton.of options g).states.map _)).lookup n x = _
  rw [Automaton.transition?]
  cases hs : (Automaton.of options g).states[n]? with
  | none =>
    rw [Segments.lookup_ofRows_of_none (by rw [List.getElem?_map, hs]; rfl), Option.bind_none, ite_self]
  | some s =>
    have hrow := Segments.lookup_ofRows (x := x) (by rw [List.getElem?_map, hs]; rfl) h.goto fun e he => by
      obtain ⟨⟨-, h₁⟩, h₂⟩ := Automaton.edge_fits hs (List.mem_filter.mp he).1
      exact ⟨h₁.trans h.symbols, h₂.trans h.states⟩
    rw [hrow, Automaton.gotoRow, lookup_filter 0 fun _ => rfl]
    rfl

/-- The number that the tables keep of a production is the one that it gets when the productions are pushed. -/
theorem get?_reduce (h : (Automaton.of options g).Sized g) {s : State}
    (hs : (Automaton.of options g).states[n]? = some s) (hkept : (Automaton.of options g).kept? s = some q) :
    ∃ w, (Tables.of options g).reduce[n]? = some w ∧
      (g.productions.foldl (fun l p => (l.push p).2) Numbered.empty).get? w = g.productions[q]? := by
  obtain ⟨p, hq, -⟩ := (Automaton.mem_candidates hs).mp (ReduceReduceChoice.keep_mem hkept)
  refine ⟨numberOf q, ?_, Numbered.get?_foldl_push _ ((List.getElem?_eq_some_iff.mp hq).1.trans h.productions)⟩
  change ((Automaton.of options g).states.map fun s =>
    (((Automaton.of options g).kept? s).map numberOf).getD absent)[n]? = _
  rw [List.getElem?_map, hs, Option.map_some, hkept]
  rfl

theorem reduce?_of_sized (h : (Automaton.of options g).Sized g) :
    (Tables.of options g).reduce? n = (Automaton.of options g).reduce? n := by
  change (((Automaton.of options g).states.map fun s =>
    (((Automaton.of options g).kept? s).map numberOf).getD absent)[n]?).bind present? = _
  rw [Automaton.reduce?, List.getElem?_map]
  cases hs : (Automaton.of options g).states[n]? with
  | none => rfl
  | some s =>
    change present? ((((Automaton.of options g).kept? s).map numberOf).getD absent) = (Automaton.of options g).kept? s
    cases hk : (Automaton.of options g).kept? s with
    | none => rfl
    | some q =>
      obtain ⟨p, hq, -⟩ := (Automaton.mem_candidates hs).mp (ReduceReduceChoice.keep_mem hk)
      have hlt := (List.getElem?_eq_some_iff.mp hq).1
      exact present?_ofNat (lt_wordLimit hlt h.productions)

theorem reduce?_of (h : (Automaton.of options g).Small g) :
    (Tables.of options g).reduce? n = (Automaton.of options g).reduce? n :=
  reduce?_of_sized h.sized

theorem length_of (h : (Automaton.of options g).Small g) (hq : g.productions[q]? = some p) :
    (Tables.of options g).length q = .ok p.rhs.length := by
  have hget : (Tables.of options g).lengths[q]? = some (UInt32.ofNat p.rhs.length) := by
    change (g.productions.map fun p => UInt32.ofNat p.rhs.length)[q]? = _
    rw [List.getElem?_map, hq]
    rfl
  rw [length, ofProduction, hget]
  exact congrArg _ (toNat_ofNat (h.bodies p (List.mem_of_getElem? hq)))

theorem head_of (h : (Automaton.of options g).Small g) (hq : g.productions[q]? = some p) :
    (Tables.of options g).head q = .ok p.lhs := by
  have hget : (Tables.of options g).heads[q]? = some (UInt32.ofNat p.lhs) := by
    change (g.productions.map fun p => UInt32.ofNat p.lhs)[q]? = _
    rw [List.getElem?_map, hq]
    rfl
  have hlt := g.symbols.lt_size_of_isNonterminal (g.fits p (List.mem_of_getElem? hq)).lhs
  rw [head, ofProduction, hget]
  exact congrArg _ (toNat_ofNat (hlt.trans h.symbols))

theorem start_of_sized (h : (Automaton.of options g).Sized g) : (Tables.of options g).start.toNat = g.start :=
  UInt32.toNat_ofNat_of_lt' ((g.symbols.lt_size_of_isNonterminal g.start_nonterminal).trans h.symbols)

theorem start_of (h : (Automaton.of options g).Small g) : (Tables.of options g).start.toNat = g.start :=
  start_of_sized h.sized

theorem stateCount_of : (Tables.of options g).stateCount = (Automaton.of options g).states.length := by
  change ((Automaton.of options g).states.map _).length = _
  rw [List.length_map]

theorem terminalCount_of (h : (Automaton.of options g).Sized g) :
    (Tables.of options g).terminalCount.toNat = g.symbols.terminalCount :=
  UInt32.toNat_ofNat_of_lt' ((Nat.le_add_right _ _).trans_lt h.symbols)

theorem nonterminalCount_of (h : (Automaton.of options g).Sized g) :
    (Tables.of options g).nonterminalCount.toNat = g.symbols.nonterminals.length :=
  UInt32.toNat_ofNat_of_lt' ((Nat.le_add_left _ _).trans_lt h.symbols)

theorem isTerminal_of_sized (h : (Automaton.of options g).Sized g) :
    (Tables.of options g).isTerminal x = g.symbols.isTerminal x := by
  rw [isTerminal, terminalCount_of h]
  rfl

theorem isTerminal_of (h : (Automaton.of options g).Small g) :
    (Tables.of options g).isTerminal x = g.symbols.isTerminal x :=
  isTerminal_of_sized h.sized

theorem admits_of (h : (Automaton.of options g).Small g) (hq : g.productions[q]? = some p) :
    (Tables.of options g).admits q x = (g.symbols.isTerminal x && (Automaton.of options g).lookahead.admits q x) := by
  rw [admits, isTerminal_of h]
  cases hx : g.symbols.isTerminal x with
  | false => rfl
  | true =>
    have hsets : ∃ set, (Automaton.of options g).lookahead.sets[q]? = some set := by
      change ∃ set, (options.method.sets g)[q]? = some set
      cases options.method <;> exact ⟨_, by rw [Method.sets, List.getElem?_map, hq]; rfl⟩
    obtain ⟨set, hset⟩ := hsets
    rw [Lookahead.admits, Lookahead.set, hset]
    exact congrArg _ (BitRows.contains_ofSets h.terminalCount_lt hset (g.symbols.isTerminal_iff.mp hx))

end Tables

end ShiftReduce
