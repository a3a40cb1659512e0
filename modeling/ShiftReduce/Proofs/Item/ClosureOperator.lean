import ShiftReduce.Proofs.Item.Closure
import ShiftReduce.Proofs.Worklist

/-!
# Closure as an operator on item sets

`Grammar.closure_least`: the closure of a set is the least set of items that has it and that is expanded, and from this
closure grows with the set, is its own closure and goes through unions. The queue of items by which it is computed runs
empty and has found just its items (`Grammar.exists_drains_closure`).
-/

namespace ShiftReduce

instance : Union ItemSet :=
  ⟨fun s t => s.insertAll t.items⟩

theorem ItemSet.mem_union {s t : ItemSet} {i : Item} : i ∈ s ∪ t ↔ i ∈ s ∨ i ∈ t := by
  rw [or_comm]
  exact mem_insertAll

namespace Grammar

variable (g : Grammar)

/-- With an item that waits for a nonterminal the property holds of the starting items of the nonterminal. -/
def Expanded (P : Item → Prop) : Prop :=
  ∀ i a, P i → i.next? g = some a → g.symbols.isNonterminal a → ∀ q ∈ g.productionsOf a, P (.atStart q)

/-- The starting items that an item asks for: those of the nonterminal that it waits for. -/
def startsOf (i : Item) : List Item :=
  match i.next? g with
  | some a => if g.symbols.isNonterminal a then (g.productionsOf a).map Item.atStart else []
  | none => []

variable {g} {s t : ItemSet} {i j : Item}

theorem mem_startsOf : j ∈ g.startsOf i ↔
    ∃ a, i.next? g = some a ∧ g.symbols.isNonterminal a ∧ ∃ q ∈ g.productionsOf a, .atStart q = j := by
  rw [startsOf]
  cases i.next? g with
  | none => simp
  | some a => by_cases ha : g.symbols.isNonterminal a <;> simp [ha]

theorem expanded_closure : g.Expanded (· ∈ g.closure s) := by
  intro i a hi hnext _ q hq
  obtain ⟨p, hp, rfl⟩ := mem_productionsOf.mp hq
  exact closure_closed hi hp hnext

/-- What holds of the set and is expanded holds of the closure. -/
theorem Expanded.of_mem_closure {P : Item → Prop} (h : g.Expanded P) (hs : ∀ i ∈ s, P i) : ∀ i ∈ g.closure s, P i := by
  refine closure_induction hs fun i q p hi hp hnext => ?_
  exact h i p.lhs hi hnext (g.fits p (List.mem_of_getElem? hp)).lhs q (mem_productionsOf.mpr ⟨p, hp, rfl⟩)

theorem closure_mono (h : ∀ i ∈ s, i ∈ t) : ∀ i ∈ g.closure s, i ∈ g.closure t :=
  expanded_closure.of_mem_closure fun i hi => subset_closure (h i hi)

theorem closure_closure : g.closure (g.closure s) = g.closure s := by
  refine ItemSet.ext_mem fun i => ⟨?_, subset_closure⟩
  exact expanded_closure.of_mem_closure (fun _ hi => hi) i

theorem closure_union : g.closure (s ∪ t) = g.closure s ∪ g.closure t := by
  refine ItemSet.ext_mem fun i => ⟨fun hi => ?_, fun hi => ?_⟩
  · have hboth : g.Expanded (· ∈ g.closure s ∪ g.closure t) := by
      intro j a hj hnext ha q hq
      rcases ItemSet.mem_union.mp hj with hj | hj
      · exact ItemSet.mem_union.mpr (.inl (expanded_closure j a hj hnext ha q hq))
      · exact ItemSet.mem_union.mpr (.inr (expanded_closure j a hj hnext ha q hq))
    refine hboth.of_mem_closure (fun j hj => ?_) i hi
    exact ItemSet.mem_union.mpr ((ItemSet.mem_union.mp hj).imp subset_closure subset_closure)
  · rcases ItemSet.mem_union.mp hi with hi | hi
    · exact closure_mono (fun j hj => ItemSet.mem_union.mpr (.inl hj)) i hi
    · exact closure_mono (fun j hj => ItemSet.mem_union.mpr (.inr hj)) i hi

theorem mem_closure_iff_leads : i ∈ g.closure s ↔ ∃ j ∈ s.items, Leads g.startsOf j i := by
  constructor
  · have hleads : g.Expanded fun i => ∃ j ∈ s.items, Leads g.startsOf j i := by
      rintro i a ⟨j, hj, hlead⟩ hnext ha q hq
      exact ⟨j, hj, hlead.tail (mem_startsOf.mpr ⟨a, hnext, ha, q, hq, rfl⟩)⟩
    exact hleads.of_mem_closure (fun i hi => ⟨i, hi, .refl⟩) i
  · rintro ⟨j, hj, hlead⟩
    refine hlead.mem (fun k hk l hl => ?_) (subset_closure hj)
    obtain ⟨a, hnext, ha, q, hq, rfl⟩ := mem_startsOf.mp hl
    exact expanded_closure k a hk hnext ha q hq

/-- The queue that begins with the items of a set runs empty, and the items found are those of the closure. -/
theorem exists_drains_closure (s : ItemSet) :
    ∃ found, Drains g.startsOf (· ++ ·) s.items s.items found ∧ ∀ i, i ∈ found ↔ i ∈ g.closure s := by
  have hnodes : ∀ i, g.startsOf i ⊆ s.items ++ g.productionIds.map Item.atStart := by
    intro i j hj
    obtain ⟨a, -, -, q, hq, rfl⟩ := mem_startsOf.mp hj
    obtain ⟨p, hp, -⟩ := mem_productionsOf.mp hq
    have hid : q ∈ g.productionIds := List.mem_range.mpr (List.getElem?_eq_some_iff.mp hp).1
    exact List.mem_append_right _ (List.mem_map_of_mem hid)
  obtain ⟨found, hfound⟩ := exists_drains joins_append hnodes s.nodup_items (List.subset_append_left _ _)
  exact ⟨found, hfound, fun i => (hfound.mem_iff joins_append).trans mem_closure_iff_leads.symm⟩

/-- The closure of an item set is the least expanded set of items that has it: it holds the set, it is expanded, and it is
in every such set. So it grows with the set, is its own closure, and that of a union is the union of the closures. The
queue of items that wait to be expanded runs empty, and then it has found the closure. -/
theorem closure_least (g : Grammar) :
    (∀ s, (∀ i ∈ s, i ∈ g.closure s) ∧ g.Expanded (· ∈ g.closure s) ∧
      ∀ P : Item → Prop, (∀ i ∈ s, P i) → g.Expanded P → ∀ i ∈ g.closure s, P i) ∧
    (∀ s t, (∀ i ∈ s, i ∈ t) → ∀ i ∈ g.closure s, i ∈ g.closure t) ∧
    (∀ s, g.closure (g.closure s) = g.closure s) ∧
    (∀ s t, g.closure (s ∪ t) = g.closure s ∪ g.closure t) ∧
    ∀ s, ∃ found, Drains g.startsOf (· ++ ·) s.items s.items found ∧ ∀ i, i ∈ found ↔ i ∈ g.closure s := by
  refine ⟨fun s => ⟨?has, expanded_closure, ?least⟩, fun s t => closure_mono, fun s => closure_closure,
    fun s t => closure_union, exists_drains_closure⟩
  case has =>
    intro i hi
    exact subset_closure hi
  case least =>
    intro P hs hP
    exact hP.of_mem_closure hs

end Grammar

end ShiftReduce
