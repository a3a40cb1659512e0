import ShiftReduce.Proofs.Automaton.Path

/-!
# Where items come from

An item is followed back along a path. With the dot behind a symbol it was moved here over the last edge, and
with the dot at the start it was opened by an item that waits for its head, unless the head is the start and
the path is empty. So under a complete right-hand side lies a state with an edge on the head, or state 0 at
the bottom of the stack (`Path.exists_goto`).
-/

namespace ShiftReduce.Automaton

variable {g : Grammar} {options : Options} {n m x q d : Nat} {p : Production} {xs ss : List Nat}

theorem mem_itemsAt_of_transition? (h : (of options g).transition? n x = some m)
    (hi : ⟨q, d + 1⟩ ∈ (of options g).itemsAt m) : ⟨q, d⟩ ∈ (of options g).itemsAt n := by
  rcases itemsAt_cases h hi with ⟨j, hj, -, heq⟩ | ⟨j, -, q', p, -, -, heq⟩
  · obtain ⟨rfl, hd⟩ := Item.mk.inj heq
    obtain rfl := Nat.succ.inj hd
    exact hj
  · exact absurd (congrArg Item.dot heq) (Nat.succ_ne_zero d)

theorem exists_next_of_atStart (h : (of options g).transition? n x = some m)
    (hi : .atStart q ∈ (of options g).itemsAt m) (hq : g.productions[q]? = some p) :
    ∃ j ∈ (of options g).itemsAt m, j.next? g = some p.lhs := by
  rcases itemsAt_cases h hi with ⟨j, -, -, heq⟩ | ⟨j, hj, q', p', hq', hnext, heq⟩
  · exact absurd (congrArg Item.dot heq) (Nat.succ_ne_zero j.dot).symm
  · obtain rfl : q = q' := congrArg Item.production heq
    obtain rfl := Option.some.inj (hq.symm.trans hq')
    exact ⟨j, hj, hnext⟩

theorem start_or_exists_next_of_atStart (hi : .atStart q ∈ (of options g).itemsAt 0)
    (hq : g.productions[q]? = some p) :
    p.lhs = g.start ∨ ∃ j ∈ (of options g).itemsAt 0, j.next? g = some p.lhs := by
  rcases itemsAt_zero_cases hi with ⟨q', p', hq', hstart, heq⟩ | ⟨j, hj, q', p', hq', hnext, heq⟩
  · obtain rfl : q = q' := congrArg Item.production heq
    obtain rfl := Option.some.inj (hq.symm.trans hq')
    exact .inl hstart
  · obtain rfl : q = q' := congrArg Item.production heq
    obtain rfl := Option.some.inj (hq.symm.trans hq')
    exact .inr ⟨j, hj, hnext⟩

namespace Path

/-- Under the symbols before its dot a path has passed a state with the item at its start. -/
theorem uncovers (h : (of options g).Path xs ss) (hi : ⟨q, d⟩ ∈ (of options g).itemsAt (ss.headD 0)) :
    .atStart q ∈ (of options g).itemsAt ((ss.drop d).headD 0) := by
  induction d generalizing xs ss with
  | zero => exact hi
  | succ d ih =>
    cases h with
    | nil =>
      -- no item of state 0 has moved, since nothing stands before its dot
      obtain ⟨p, before, -, -, hd, -, hxs⟩ := Path.nil.valid _ hi
      have hlen := congrArg List.length hxs
      change d + 1 ≤ p.rhs.length at hd
      change 0 = (before ++ p.rhs.take (d + 1)).length at hlen
      rw [List.length_append, List.length_take, Nat.min_eq_left hd] at hlen
      omega
    | push h hs => exact ih h (mem_itemsAt_of_transition? hs hi)

/-- A state with a production at its start has an edge on the head, unless the production is the whole. -/
theorem exists_edge (h : (of options g).Path xs ss) (hq : g.productions[q]? = some p)
    (hi : .atStart q ∈ (of options g).itemsAt (ss.headD 0)) :
    ss = [0] ∧ p.lhs = g.start ∨ ∃ m, (of options g).transition? (ss.headD 0) p.lhs = some m := by
  have hedge : ∀ j ∈ (of options g).itemsAt (ss.headD 0), j.next? g = some p.lhs →
      ∃ m, (of options g).transition? (ss.headD 0) p.lhs = some m := by
    intro j hj hnext
    obtain ⟨m, hm, -⟩ := shifted_mem hj hnext
    exact ⟨m, hm⟩
  cases h with
  | nil =>
    rcases start_or_exists_next_of_atStart hi hq with hstart | ⟨j, hj, hnext⟩
    · exact .inl ⟨rfl, hstart⟩
    · exact .inr (hedge j hj hnext)
  | push _ hs =>
    obtain ⟨j, hj, hnext⟩ := exists_next_of_atStart hs hi hq
    exact .inr (hedge j hj hnext)

theorem exists_goto (h : (of options g).Path xs ss) (hq : g.productions[q]? = some p)
    (hi : ⟨q, p.rhs.length⟩ ∈ (of options g).itemsAt (ss.headD 0)) :
    ss.drop p.rhs.length = [0] ∧ p.lhs = g.start ∨
      ∃ m, (of options g).transition? ((ss.drop p.rhs.length).headD 0) p.lhs = some m := by
  obtain ⟨before, rfl⟩ := h.handle hq hi
  exact h.rest.exists_edge hq (h.uncovers hi)

end Path

end ShiftReduce.Automaton
