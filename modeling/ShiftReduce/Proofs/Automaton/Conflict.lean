import ShiftReduce.Proofs.Grammar.Follow
import ShiftReduce.Proofs.Table.Lookup

/-!
# States without conflicts

Where no conflict is reported the options have nothing to decide: a complete item is the one that the state
reduces by (`reduce?_of_complete`), an item that waits for a terminal has its edge in the tables
(`shift?_of_next`), and no terminal asks for both (`shift?_eq_none`). What follows the head of a production
is in its lookahead under both methods (`admits_of_mem_follow`); under SLR this is all (`Lookahead.admits_slr`).
-/

namespace ShiftReduce

namespace Grammar

/-- The terminal is in FOLLOW of the head of the production. -/
def FollowsHead (g : Grammar) (q t : Nat) : Prop :=
  ∃ p, g.productions[q]? = some p ∧ t ∈ (FollowTable.of g (FirstTable.of g)).follow p.lhs

theorem FollowsHead.isTerminal {g : Grammar} {q t : Nat} (h : g.FollowsHead q t) : g.symbols.isTerminal t := by
  obtain ⟨p, hp, ht⟩ := h
  exact FollowTable.isTerminal_of_mem_follow (g.fits p (List.mem_of_getElem? hp)).lhs ht

end Grammar

namespace Lookahead

variable {g : Grammar} {q t : Nat}

theorem admits_lr0 : (of .lr0 g).admits q t ↔ (∃ p, g.productions[q]? = some p) ∧ g.symbols.isTerminal t := by
  rw [admits, set, of, Method.sets, List.getElem?_map]
  cases g.productions[q]? with
  | none => simp
  | some p => simp

theorem admits_slr : (of .slr g).admits q t ↔ g.FollowsHead q t := by
  rw [admits, set, of, Method.sets, List.getElem?_map, Grammar.FollowsHead]
  cases g.productions[q]? with
  | none => simp
  | some p => simp

theorem isTerminal_of_admits {method : Method} (h : (of method g).admits q t) : g.symbols.isTerminal t := by
  cases method with
  | lr0 => exact (admits_lr0.mp h).2
  | slr => exact (admits_slr.mp h).isTerminal

end Lookahead

namespace State

variable {g : Grammar} {l : Lookahead} {s : State} {id : Nat}

theorem conflicts_eq_nil : s.conflicts g l id = [] ↔ s.candidates.length ≤ 1 ∧ s.colliding g l = [] := by
  rw [conflicts, List.append_eq_nil_iff, reduceReduce?, shiftReduce?]
  refine and_congr ?_ ?_
  · by_cases h : s.candidates.length ≤ 1 <;> simp [h]
  · by_cases h : s.colliding g l = [] <;> simp [h]

end State

namespace Automaton

variable {g : Grammar} {options : Options} {i : Item} {n q x : Nat} {p : Production} {s : State}

theorem conflictFree_state (h : (of options g).conflicts = []) (hs : (of options g).states[n]? = some s) :
    s.candidates.length ≤ 1 ∧ s.colliding g (of options g).lookahead = [] := by
  have hnone := List.flatMap_eq_nil_iff.mp h
  exact State.conflicts_eq_nil.mp (hnone (s, n) (List.mem_zipIdx_iff_getElem?.mpr hs))

theorem reduce?_of_complete (h : (of options g).conflicts = []) (hq : g.productions[q]? = some p)
    (hi : ⟨q, p.rhs.length⟩ ∈ (of options g).itemsAt n) : (of options g).reduce? n = some q := by
  obtain ⟨s, hs, -⟩ := mem_itemsAt_iff_items.mp hi
  have hmem : q ∈ s.candidates := (mem_candidates hs).mpr ⟨p, hq, hi⟩
  have hone : s.candidates = [q] := by
    rcases hc : s.candidates with - | ⟨q', - | ⟨q'', qs⟩⟩
    · rw [hc] at hmem
      exact absurd hmem List.not_mem_nil
    · rw [hc, List.mem_singleton] at hmem
      rw [hmem]
    · have hle := (conflictFree_state h hs).1
      rw [hc] at hle
      simp at hle
  rw [reduce?, hs, Option.bind_some, kept?, hone]
  cases (of options g).options.onReduceReduce <;> rfl

/-- No production is complete where its lookahead is waited for. -/
theorem not_admits_of_next (h : (of options g).conflicts = []) (hi : i ∈ (of options g).itemsAt n)
    (hnext : i.next? g = some x) (hx : g.symbols.isTerminal x) (hq : (of options g).reduce? n = some q) :
    ¬ (of options g).lookahead.admits q x := by
  intro ha
  obtain ⟨s, hs, hk⟩ := Option.bind_eq_some_iff.mp hq
  obtain ⟨s', hs', hi⟩ := mem_itemsAt_iff_items.mp hi
  obtain rfl := Option.some.inj (hs.symm.trans hs')
  have hcoll : x ∈ s.colliding g (of options g).lookahead := by
    refine List.mem_filter.mpr ⟨Grammar.mem_nextSymbols.mpr ⟨i, hi, hnext⟩, ?_⟩
    rw [hx, Bool.true_and, List.any_eq_true]
    exact ⟨q, ReduceReduceChoice.keep_mem hk, ha⟩
  rw [(conflictFree_state h hs).2] at hcoll
  exact absurd hcoll List.not_mem_nil

theorem shift?_of_next (h : (of options g).conflicts = []) (hi : i ∈ (of options g).itemsAt n)
    (hnext : i.next? g = some x) (hx : g.symbols.isTerminal x) :
    ∃ m, (of options g).shift? g n x = some m ∧ i.shifted ∈ (of options g).itemsAt m := by
  obtain ⟨m, hm, hi'⟩ := shifted_mem hi hnext
  exact ⟨m, shift?_eq_some.mpr ⟨hx, hm, fun _ q hq => not_admits_of_next h hi hnext hx hq⟩, hi'⟩

theorem shift?_eq_none (h : (of options g).conflicts = []) (hq : g.productions[q]? = some p)
    (hi : ⟨q, p.rhs.length⟩ ∈ (of options g).itemsAt n) (ha : (of options g).lookahead.admits q x) :
    (of options g).shift? g n x = none := by
  rw [Option.eq_none_iff_forall_ne_some]
  intro m hm
  obtain ⟨hx, hm, -⟩ := shift?_eq_some.mp hm
  obtain ⟨j, hj, hnext⟩ := exists_next_of_transition? hm
  exact not_admits_of_next h hj hnext hx (reduce?_of_complete h hq hi) ha

/-- What follows the head of a production is in the lookahead of the production. -/
theorem admits_of_mem_follow (hq : g.productions[q]? = some p)
    (hx : x ∈ (FollowTable.of g (FirstTable.of g)).follow p.lhs) : (of options g).lookahead.admits q x := by
  change (Lookahead.of options.method g).admits q x
  have hfollows : g.FollowsHead q x := ⟨p, hq, hx⟩
  cases options.method with
  | lr0 => exact Lookahead.admits_lr0.mpr ⟨⟨p, hq⟩, hfollows.isTerminal⟩
  | slr => exact Lookahead.admits_slr.mpr hfollows

end Automaton

end ShiftReduce
