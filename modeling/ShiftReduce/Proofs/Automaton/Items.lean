import ShiftReduce.Automaton.Basic
import ShiftReduce.Proofs.Automaton.Survey

/-!
# The items of a state

What the automaton says about the items of its states, by the number of a state: state 0 has the starting
items of the start symbol, items are closed under what they wait for, and the edge of a symbol leads to the
moved items (`shifted_mem`). `itemsAt_zero_induction` and `itemsAt_induction` say that no state has other
items, `itemsAt_zero_cases` and `itemsAt_cases` how an item has come into its state.
-/

namespace ShiftReduce

theorem lookup_filterMap {β : Type} (h : Nat → Option β) (xs : List Nat) (x : Nat) :
    (xs.filterMap fun y => (h y).map fun t => (y, t)).lookup x = if x ∈ xs then h x else none := by
  induction xs with
  | nil => rfl
  | cons y ys ih =>
    by_cases hxy : x = y
    · subst hxy
      cases hx : h x with
      | none => simp [hx, ih]
      | some t => simp [hx]
    · cases hy : h y with
      | none => simp [hy, ih, hxy]
      | some t => simp [hy, ih, hxy, List.lookup_cons, beq_false_of_ne hxy]

theorem ReduceReduceChoice.keep_mem {choice : ReduceReduceChoice} {qs : List Nat} {q : Nat}
    (h : choice.keep qs = some q) : q ∈ qs := by
  cases choice with
  | first => exact List.mem_of_head? h
  | last => exact List.mem_of_getLast? h

namespace Survey

variable {g : Grammar} {v : Survey} {seed : Seed} {i : Item} {x : Nat}

theorem mem_items_state : i ∈ (v.state g seed).items ↔ i ∈ g.closure seed.kernel := by
  change i ∈ seed.kernel.items ++ ((g.closure seed.kernel).diff seed.kernel).items ↔ _
  rw [List.mem_append]
  change i ∈ seed.kernel ∨ i ∈ (g.closure seed.kernel).diff seed.kernel ↔ _
  rw [ItemSet.mem_diff]
  constructor
  · rintro (h | h)
    · exact Grammar.subset_closure h
    · exact h.1
  · intro h
    by_cases hk : i ∈ seed.kernel
    · exact .inl hk
    · exact .inr ⟨h, hk⟩

def targetKernel (g : Grammar) (kernel : ItemSet) (x : Nat) : ItemSet :=
  Grammar.moveOver (g.waiting (g.closure kernel).items) x

theorem transition?_state {m : Nat} : (v.state g seed).transition? x = some m ↔
    (∃ i ∈ g.closure seed.kernel, i.next? g = some x) ∧ v.find? (targetKernel g seed.kernel x) = some m := by
  change ((g.successors (g.closure seed.kernel).items).filterMap fun edge =>
    (v.find? edge.2).map fun target => (edge.1, target)).lookup x = some m ↔ _
  rw [Grammar.successors, List.filterMap_map]
  refine (congrArg (· = some m) (lookup_filterMap (fun y => v.find? (targetKernel g seed.kernel y)) _ x)).to_iff.trans ?_
  simp only [Grammar.mem_nextSymbols, Option.ite_none_right_eq_some]
  rfl

theorem mem_candidates_state {q : Nat} : q ∈ (v.state g seed).candidates ↔
    ∃ i ∈ g.closure seed.kernel, i.isComplete g ∧ i.production = q := by
  change q ∈ (v.state g seed).items.filterMap (fun i => if i.isComplete g then some i.production else none) ↔ _
  simp [mem_items_state]

end Survey

namespace Automaton

variable {g : Grammar} {options : Options} {i : Item} {n m x : Nat}

/-- The items of the state with a number; none for a number without a state. -/
def itemsAt (a : Automaton) (n : Nat) : List Item :=
  (a.states[n]?).elim [] State.items

theorem getElem?_states {s : State} : (of options g).states[n]? = some s ↔
    ∃ seed, (Survey.of g).seeds[n]? = some seed ∧ (Survey.of g).state g seed = s := by
  change ((Survey.of g).seeds.toList.map ((Survey.of g).state g))[n]? = some s ↔ _
  simp

theorem length_states : (of options g).states.length = (Survey.of g).seeds.size := by
  change ((Survey.of g).seeds.toList.map ((Survey.of g).state g)).length = _
  simp

theorem length_states_pos : 0 < (of options g).states.length := by
  rw [length_states]
  exact (Array.getElem?_eq_some_iff.mp (Survey.finished g).1.root).1

theorem mem_itemsAt_iff_items {a : Automaton} :
    i ∈ a.itemsAt n ↔ ∃ s, a.states[n]? = some s ∧ i ∈ s.items := by
  rw [itemsAt]
  cases a.states[n]? <;> simp

theorem mem_itemsAt : i ∈ (of options g).itemsAt n ↔
    ∃ seed, (Survey.of g).seeds[n]? = some seed ∧ i ∈ g.closure seed.kernel := by
  simp only [mem_itemsAt_iff_items, getElem?_states]
  constructor
  · rintro ⟨_, ⟨seed, hseed, rfl⟩, hi⟩
    exact ⟨seed, hseed, Survey.mem_items_state.mp hi⟩
  · rintro ⟨seed, hseed, hi⟩
    exact ⟨_, ⟨seed, hseed, rfl⟩, Survey.mem_items_state.mpr hi⟩

theorem transition?_eq_some : (of options g).transition? n x = some m ↔
    ∃ seed, (Survey.of g).seeds[n]? = some seed ∧ (∃ i ∈ g.closure seed.kernel, i.next? g = some x) ∧
      (Survey.of g).find? (Survey.targetKernel g seed.kernel x) = some m := by
  simp only [transition?, Option.bind_eq_some_iff, getElem?_states]
  constructor
  · rintro ⟨_, ⟨seed, hseed, rfl⟩, h⟩
    exact ⟨seed, hseed, Survey.transition?_state.mp h⟩
  · rintro ⟨seed, hseed, h⟩
    exact ⟨_, ⟨seed, hseed, rfl⟩, Survey.transition?_state.mpr h⟩

theorem lt_length_of_transition? (h : (of options g).transition? n x = some m) :
    m < (of options g).states.length := by
  obtain ⟨_, -, -, hm⟩ := transition?_eq_some.mp h
  obtain ⟨_, hm, -⟩ := Survey.seed_of_find? hm
  rw [length_states]
  exact (Array.getElem?_eq_some_iff.mp hm).1

/-- Edges are on symbols, the end token excepted, and lead to states. -/
theorem edge_fits {s : State} {e : Nat × Nat} (hs : (of options g).states[n]? = some s) (he : e ∈ s.transitions) :
    (e.1 ≠ endId ∧ e.1 < g.symbols.size) ∧ e.2 < (of options g).states.length := by
  obtain ⟨seed, -, rfl⟩ := getElem?_states.mp hs
  obtain ⟨⟨x, kernel⟩, hx, he⟩ := List.mem_filterMap.mp he
  obtain ⟨m, hm, rfl⟩ := Option.map_eq_some_iff.mp he
  obtain ⟨⟨i, -, hnext⟩, -⟩ := Grammar.mem_successors.mp hx
  obtain ⟨_, hm, -⟩ := Survey.seed_of_find? hm
  rw [length_states]
  exact ⟨Item.next?_fits hnext, (Array.getElem?_eq_some_iff.mp hm).1⟩

theorem itemsAt_closed {q : Nat} {p : Production} (hi : i ∈ (of options g).itemsAt n)
    (hq : g.productions[q]? = some p) (hnext : i.next? g = some p.lhs) :
    .atStart q ∈ (of options g).itemsAt n := by
  obtain ⟨seed, hseed, hi⟩ := mem_itemsAt.mp hi
  exact mem_itemsAt.mpr ⟨seed, hseed, Grammar.closure_closed hi hq hnext⟩

/-- The items of the first state are the closure of those that begin a sentence. -/
theorem mem_itemsAt_zero : i ∈ (of options g).itemsAt 0 ↔ i ∈ g.closure g.rootKernel := by
  rw [mem_itemsAt, (Survey.finished g).1.root]
  simp

theorem atStart_mem_itemsAt_zero {q : Nat} {p : Production} (hq : g.productions[q]? = some p)
    (hstart : p.lhs = g.start) : .atStart q ∈ (of options g).itemsAt 0 :=
  mem_itemsAt_zero.mpr (Grammar.subset_closure (Grammar.mem_rootKernel.mpr ⟨q, p, hq, hstart, rfl⟩))

/-- An item that waits for a symbol is moved by the edge of the symbol, and there is one. -/
theorem shifted_mem (hi : i ∈ (of options g).itemsAt n) (hnext : i.next? g = some x) :
    ∃ m, (of options g).transition? n x = some m ∧ i.shifted ∈ (of options g).itemsAt m := by
  obtain ⟨seed, hseed, hi⟩ := mem_itemsAt.mp hi
  have hsucc : (x, Survey.targetKernel g seed.kernel x) ∈ g.successorsOf seed.kernel :=
    Grammar.mem_successors.mpr ⟨⟨i, hi, hnext⟩, rfl⟩
  have hlt := (Array.getElem?_eq_some_iff.mp hseed).1
  have hknown := Survey.explored_of g n hlt seed hseed _ hsucc
  obtain ⟨m, hm⟩ := Option.isSome_iff_exists.mp (Survey.find?_isSome.mpr hknown)
  obtain ⟨seed', hseed', hk⟩ := Survey.seed_of_find? hm
  refine ⟨m, transition?_eq_some.mpr ⟨seed, hseed, ⟨i, hi, hnext⟩, hm⟩, ?_⟩
  refine mem_itemsAt.mpr ⟨seed', hseed', Grammar.subset_closure ?_⟩
  rw [hk]
  exact Grammar.mem_moveOver.mpr ⟨i, hi, hnext, rfl⟩

theorem exists_next_of_transition? (h : (of options g).transition? n x = some m) :
    ∃ i ∈ (of options g).itemsAt n, i.next? g = some x := by
  obtain ⟨seed, hseed, ⟨i, hi, hnext⟩, -⟩ := transition?_eq_some.mp h
  exact ⟨i, mem_itemsAt.mpr ⟨seed, hseed, hi⟩, hnext⟩

/-- The items that an edge leads to are the closure of those that it moves. -/
theorem exists_kernel_of_transition? (h : (of options g).transition? n x = some m) : ∃ kernel : ItemSet,
    (∀ i ∈ kernel, ∃ j ∈ (of options g).itemsAt n, j.next? g = some x ∧ i = j.shifted) ∧
      ∀ i, i ∈ (of options g).itemsAt m ↔ i ∈ g.closure kernel := by
  obtain ⟨seed, hseed, -, hfind⟩ := transition?_eq_some.mp h
  obtain ⟨seed', hseed', hk⟩ := Survey.seed_of_find? hfind
  refine ⟨seed'.kernel, fun i hi => ?_, fun i => by simp [mem_itemsAt, hseed']⟩
  rw [hk] at hi
  obtain ⟨j, hj, hnext, rfl⟩ := Grammar.mem_moveOver.mp hi
  exact ⟨j, mem_itemsAt.mpr ⟨seed, hseed, hj⟩, hnext, rfl⟩

theorem itemsAt_zero_induction {P : Item → Prop}
    (hroot : ∀ q p, g.productions[q]? = some p → p.lhs = g.start → P (.atStart q))
    (hstart : ∀ i q p, P i → g.productions[q]? = some p → i.next? g = some p.lhs → P (.atStart q)) :
    ∀ i ∈ (of options g).itemsAt 0, P i := by
  intro i hi
  refine Grammar.closure_induction (fun j hj => ?_) hstart i (mem_itemsAt_zero.mp hi)
  obtain ⟨q, p, hq, hl, rfl⟩ := Grammar.mem_rootKernel.mp hj
  exact hroot q p hq hl

theorem itemsAt_induction {P : Item → Prop} (h : (of options g).transition? n x = some m)
    (hmove : ∀ i ∈ (of options g).itemsAt n, i.next? g = some x → P i.shifted)
    (hstart : ∀ i q p, P i → g.productions[q]? = some p → i.next? g = some p.lhs → P (.atStart q)) :
    ∀ i ∈ (of options g).itemsAt m, P i := by
  obtain ⟨kernel, hkernel, hitems⟩ := exists_kernel_of_transition? h
  intro i hi
  refine Grammar.closure_induction (fun j hj => ?_) hstart i ((hitems i).mp hi)
  obtain ⟨k, hk, hnext, rfl⟩ := hkernel j hj
  exact hmove k hk hnext

theorem itemsAt_zero_cases (hi : i ∈ (of options g).itemsAt 0) :
    (∃ q p, g.productions[q]? = some p ∧ p.lhs = g.start ∧ i = .atStart q) ∨
    ∃ j ∈ (of options g).itemsAt 0, ∃ q p, g.productions[q]? = some p ∧ j.next? g = some p.lhs ∧ i = .atStart q := by
  rcases Grammar.closure_cases (mem_itemsAt_zero.mp hi) with hi | ⟨j, hj, hopened⟩
  · obtain ⟨q, p, hq, hl, rfl⟩ := Grammar.mem_rootKernel.mp hi
    exact .inl ⟨q, p, hq, hl, rfl⟩
  · exact .inr ⟨j, mem_itemsAt_zero.mpr hj, hopened⟩

theorem itemsAt_cases (h : (of options g).transition? n x = some m) (hi : i ∈ (of options g).itemsAt m) :
    (∃ j ∈ (of options g).itemsAt n, j.next? g = some x ∧ i = j.shifted) ∨
    ∃ j ∈ (of options g).itemsAt m, ∃ q p, g.productions[q]? = some p ∧ j.next? g = some p.lhs ∧ i = .atStart q := by
  obtain ⟨kernel, hkernel, hitems⟩ := exists_kernel_of_transition? h
  rcases Grammar.closure_cases ((hitems i).mp hi) with hi | ⟨j, hj, hopened⟩
  · exact .inl (hkernel i hi)
  · exact .inr ⟨j, (hitems j).mpr hj, hopened⟩

theorem mem_allItems_of_mem_itemsAt (h : i ∈ (of options g).itemsAt n) : i ∈ g.allItems := by
  obtain ⟨seed, hseed, hi⟩ := mem_itemsAt.mp h
  have hkernel : seed.kernel ∈ (Survey.of g).kernels :=
    List.mem_map_of_mem (Array.mem_toList_iff.mpr (Array.mem_of_getElem? hseed))
  refine Grammar.closure_induction ((Survey.finished g).1.items _ hkernel) (fun _ q p _ hq _ => ?_) i hi
  exact Grammar.mem_allItems.mpr ⟨p, hq, Nat.zero_le _⟩

theorem mem_candidates {s : State} {q : Nat} (hs : (of options g).states[n]? = some s) :
    q ∈ s.candidates ↔ ∃ p, g.productions[q]? = some p ∧ ⟨q, p.rhs.length⟩ ∈ (of options g).itemsAt n := by
  obtain ⟨seed, hseed, rfl⟩ := getElem?_states.mp hs
  rw [Survey.mem_candidates_state]
  constructor
  · rintro ⟨⟨q, d⟩, hi, hc, rfl⟩
    have hi : ⟨q, d⟩ ∈ (of options g).itemsAt n := mem_itemsAt.mpr ⟨seed, hseed, hi⟩
    obtain ⟨p, hq, hd⟩ := Grammar.mem_allItems.mp (mem_allItems_of_mem_itemsAt hi)
    simp only [Item.isComplete, Grammar.rhs_eq hq, decide_eq_true_eq] at hc
    obtain rfl := Nat.le_antisymm hd hc
    exact ⟨p, hq, hi⟩
  · rintro ⟨p, hq, hi⟩
    obtain ⟨seed', hseed', hi⟩ := mem_itemsAt.mp hi
    obtain rfl := Option.some.inj (hseed.symm.trans hseed')
    exact ⟨_, hi, by simp [Item.isComplete, Grammar.rhs_eq hq], rfl⟩

/-- The production that a state reduces by is complete in it. -/
theorem complete_of_reduce? {q : Nat} (h : (of options g).reduce? n = some q) :
    ∃ p, g.productions[q]? = some p ∧ ⟨q, p.rhs.length⟩ ∈ (of options g).itemsAt n := by
  obtain ⟨s, hs, hk⟩ := Option.bind_eq_some_iff.mp h
  exact (mem_candidates hs).mp (ReduceReduceChoice.keep_mem hk)

end Automaton

end ShiftReduce
