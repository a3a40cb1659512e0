import ShiftReduce.Proofs.Grammar.Follow
import ShiftReduce.Proofs.Table.Lookup

/-!
# Tables lose nothing but what the options drop

`Tables.lossless`: asked about any state and any symbol, whether the automaton has them or not, the tables of a
grammar answer what its automaton answers. A shift is missing only where a reduce is preferred on its terminal
(`Automaton.prefersReduce`), and nothing is found beyond the states, terminals and nonterminals.
-/

namespace ShiftReduce

namespace Automaton

variable {g : Grammar} {a : Automaton} {options : Options} {n q x : Nat} {p : Production}

/-- The state reduces on the symbol, and the options put this before a shift. -/
def prefersReduce (a : Automaton) (n x : Nat) : Bool :=
  a.options.onShiftReduce = .reduce && (a.reduce? n).any (a.lookahead.admits · x)

theorem prefersReduce_iff : a.prefersReduce n x ↔
    a.options.onShiftReduce = .reduce ∧ ∃ q, a.reduce? n = some q ∧ a.lookahead.admits q x := by
  simp [prefersReduce, Option.any_eq_true]

/-- The shifts are the edges on terminals, but for those that a preferred reduce takes. -/
theorem shift?_eq : a.shift? g n x =
    if g.symbols.isTerminal x && !a.prefersReduce n x then a.transition? n x else none := by
  refine Option.ext fun m => ?_
  rw [shift?_eq_some, Option.ite_none_right_eq_some, Bool.and_eq_true, and_assoc, and_congr_right_iff]
  intro _
  rw [and_comm, and_congr_left_iff]
  intro _
  rw [Bool.not_eq_true', ← Bool.not_eq_true, prefersReduce_iff]
  simp only [not_and, not_exists]

/-- A production reduces on terminals only. -/
theorem isTerminal_of_admits (hq : g.productions[q]? = some p) (h : (of options g).lookahead.admits q x) :
    g.symbols.isTerminal x := by
  change (((options.method.sets g)[q]?).getD []).contains x at h
  rw [List.contains_iff_mem] at h
  cases hm : options.method with
  | lr0 =>
    rw [hm, Method.sets, List.getElem?_map, hq] at h
    exact g.symbols.mem_terminalIds.mp h
  | slr =>
    rw [hm, Method.sets, List.getElem?_map, hq] at h
    exact FollowTable.isTerminal_of_mem_follow (g.fits p (List.mem_of_getElem? hq)).lhs h

theorem transition?_eq_none (hn : a.states.length ≤ n) : a.transition? n x = none := by
  rw [transition?, List.getElem?_eq_none hn, Option.bind_none]

theorem reduce?_eq_none (hn : a.states.length ≤ n) : a.reduce? n = none := by
  rw [reduce?, List.getElem?_eq_none hn, Option.bind_none]

end Automaton

namespace Tables

variable {g : Grammar} {options : Options}

/-- The tables of a grammar give the edges of its automaton on terminals, those taken by a preferred reduce
excepted, its edges on nonterminals, the production kept in each state, and the head, the length and the lookahead
of each production. They know no other states and symbols. -/
theorem lossless (h : (Automaton.of options g).Small g) :
    (∀ n x, (Tables.of options g).shift.lookup n x = .ok
      (if g.symbols.isTerminal x && !(Automaton.of options g).prefersReduce n x then
        (Automaton.of options g).transition? n x else none)) ∧
    (∀ n x, (Tables.of options g).goto.lookup n x = .ok
      (if g.symbols.isNonterminal x then (Automaton.of options g).transition? n x else none)) ∧
    (∀ n, (Tables.of options g).reduce? n = (Automaton.of options g).reduce? n) ∧
    (∀ n, (Automaton.of options g).states.length ≤ n →
      (∀ x, (Tables.of options g).shift.lookup n x = .ok none ∧ (Tables.of options g).goto.lookup n x = .ok none) ∧
      (Tables.of options g).reduce? n = none) ∧
    ∀ q p, g.productions[q]? = some p → (Tables.of options g).head q = .ok p.lhs ∧
      (Tables.of options g).length q = .ok p.rhs.length ∧
      ∀ x, (Tables.of options g).admits q x = (Automaton.of options g).lookahead.admits q x := by
  refine ⟨fun n x => ?shift, fun n x => goto_lookup h, fun n => reduce?_of h, fun n hn => ⟨fun x => ?beyond, ?kept⟩,
    fun q p hq => ⟨head_of h hq, length_of h hq, fun x => ?admits⟩⟩
  case shift => rw [shift_lookup h, Automaton.shift?_eq]
  case beyond =>
    rw [shift_lookup h, goto_lookup h, Automaton.shift?_eq, Automaton.transition?_eq_none hn, ite_self, ite_self]
    exact ⟨rfl, rfl⟩
  case kept => rw [reduce?_of h, Automaton.reduce?_eq_none hn]
  case admits =>
    rw [admits_of h hq]
    cases ha : (Automaton.of options g).lookahead.admits q x with
    | false => rw [Bool.and_false]
    | true => rw [Automaton.isTerminal_of_admits hq ha, Bool.and_true]

/-- Where the empty production is preferred, the edge on `a` out of state 0 is no shift. -/
theorem lossless_nested : (Automaton.of ⟨.lr0, .reduce, .first⟩ .nested).Small .nested ∧
    (Automaton.of ⟨.lr0, .reduce, .first⟩ .nested).transition? 0 1 = some 1 ∧
    (Tables.of ⟨.lr0, .reduce, .first⟩ .nested).shift.lookup 0 1 = .ok none ∧
    (Tables.of ⟨.lr0, .reduce, .first⟩ .nested).shift.lookup 2 2 = .ok (some 3) ∧
    (Tables.of ⟨.lr0, .reduce, .first⟩ .nested).admits 1 4294967295 = false := by
  have hsmall : (Automaton.of ⟨.lr0, .reduce, .first⟩ .nested).Small .nested := by decide +kernel
  obtain ⟨hshift, -, -, -, hproductions⟩ := lossless hsmall
  refine ⟨hsmall, by decide +kernel, (hshift 0 1).trans (by decide +kernel), (hshift 2 2).trans (by decide +kernel), ?_⟩
  exact ((hproductions 1 ⟨3, []⟩ rfl).2.2 4294967295).trans (by decide +kernel)

end Tables

end ShiftReduce
