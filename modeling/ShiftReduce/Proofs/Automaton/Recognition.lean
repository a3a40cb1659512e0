import ShiftReduce.Proofs.Automaton.Viable

/-!
# What the automaton recognizes

`Automaton.leads?` follows the edges from state 0 along a string. It comes to a state exactly when some item is
valid behind the string, and the items of this state are then the valid ones (`recognizes_exactly`).
-/

namespace ShiftReduce

namespace Automaton

/-- The state that some symbols lead to from state 0, one edge after the other. -/
def leads? (a : Automaton) (xs : List Nat) : Option Nat :=
  xs.foldlM a.transition? 0

variable {a : Automaton} {xs ys : List Nat} {n m x : Nat}

@[simp] theorem leads?_nil : a.leads? [] = some 0 :=
  rfl

theorem leads?_append : a.leads? (xs ++ ys) = (a.leads? xs).bind fun n => ys.foldlM a.transition? n :=
  List.foldlM_append

theorem leads?_concat_eq_some : a.leads? (xs ++ [x]) = some m ↔ ∃ n, a.leads? xs = some n ∧ a.transition? n x = some m := by
  rw [leads?_append, Option.bind_eq_some_iff]
  simp

/-- To be led along a string is to go the path of the string. -/
theorem leads?_eq_some : a.leads? xs = some n ↔ ∃ ss, a.Path xs.reverse ss ∧ ss.headD 0 = n := by
  -- a path grows by the last symbol of its string
  induction xs using List.reverseRecOn generalizing n with
  | nil =>
    constructor
    · intro h
      exact ⟨[0], .nil, Option.some.inj h⟩
    · rintro ⟨ss, hpath, rfl⟩
      cases hpath
      rfl
  | append_singleton xs x ih =>
    rw [leads?_concat_eq_some, List.reverse_concat]
    constructor
    · rintro ⟨k, hk, hn⟩
      obtain ⟨ss, hpath, rfl⟩ := ih.mp hk
      exact ⟨n :: ss, hpath.push hn, rfl⟩
    · rintro ⟨ss, hpath, rfl⟩
      cases hpath with
      | push hpath hs => exact ⟨_, ih.mpr ⟨_, hpath, rfl⟩, hs⟩

/-- A string leads to a state if and only if an item is valid behind it: some chain of productions from the start,
each for a symbol of the one before, comes to the item's production and leaves what stands before it as it is. The
state has the items that are valid behind the string and no others. -/
theorem recognizes_exactly (options : Options) (g : Grammar) (xs : List Nat) :
    ((∃ n, (of options g).leads? xs = some n) ↔ ∃ i, g.Valid xs i) ∧
      ∀ n, (of options g).leads? xs = some n → ∀ i, i ∈ (of options g).itemsAt n ↔ g.Valid xs i := by
  refine ⟨⟨?_, ?_⟩, ?_⟩
  · rintro ⟨n, hn⟩
    obtain ⟨ss, hpath, -⟩ := leads?_eq_some.mp hn
    obtain ⟨i, hi⟩ := hpath.exists_item
    have hvalid := hpath.valid i hi
    rw [List.reverse_reverse] at hvalid
    exact ⟨i, hvalid⟩
  · rintro ⟨i, hi⟩
    obtain ⟨ss, hpath, -⟩ := exists_path_of_valid options hi
    exact ⟨_, leads?_eq_some.mpr ⟨ss, hpath, rfl⟩⟩
  · intro n hn i
    obtain ⟨ss, hpath, rfl⟩ := leads?_eq_some.mp hn
    rw [hpath.mem_itemsAt_iff, List.reverse_reverse]

/-- Behind `a a S` the symbol `b` can follow, and nothing begins with `b`. -/
theorem recognizes_exactly_nested :
    (of {} .nested).leads? [1, 1, 3] = some 2 ∧ Grammar.nested.Valid [1, 1, 3] ⟨0, 2⟩ ∧
      ¬ ∃ i, Grammar.nested.Valid [2] i := by
  have hlead : (of {} .nested).leads? [1, 1, 3] = some 2 := by decide +kernel
  have hmem : ⟨0, 2⟩ ∈ (of {} .nested).itemsAt 2 := by decide +kernel
  have hstop : (of {} .nested).leads? [2] = none := by decide +kernel
  refine ⟨hlead, ((recognizes_exactly {} .nested [1, 1, 3]).2 2 hlead ⟨0, 2⟩).mp hmem, fun hvalid => ?_⟩
  obtain ⟨n, hn⟩ := (recognizes_exactly {} .nested [2]).1.mpr hvalid
  rw [hstop] at hn
  cases hn

end Automaton

end ShiftReduce
