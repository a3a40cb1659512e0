import ShiftReduce.Item.Basic
import ShiftReduce.Proofs.Grammar.Derivation
import ShiftReduce.Proofs.Reach

/-!
# Closure is the least closed set

`closure_closed`: with an item that waits for a nonterminal the closure has the starting items of all its
productions. `closure_induction`: nothing else is added, so what holds of the items given and passes to the
starting items of an awaited nonterminal holds of the whole closure.
-/

namespace ShiftReduce

variable {g : Grammar}

theorem Grammar.rhs_eq {q : Nat} {p : Production} (hp : g.productions[q]? = some p) : g.rhs q = p.rhs := by
  simp [Grammar.rhs, hp]

namespace Item

theorem next?_atStart {q : Nat} : (atStart q).next? g = (g.rhs q).head? := by
  simp [next?, atStart, List.head?_eq_getElem?]

theorem exists_production {i : Item} {x : Nat} (h : i.next? g = some x) :
    ∃ p, g.productions[i.production]? = some p ∧ p.rhs = p.rhs.take i.dot ++ x :: p.rhs.drop (i.dot + 1) := by
  cases hp : g.productions[i.production]? with
  | none => simp [next?, Grammar.rhs, hp] at h
  | some p =>
    rw [next?, Grammar.rhs_eq hp] at h
    obtain ⟨hlt, rfl⟩ := List.getElem?_eq_some_iff.mp h
    exact ⟨p, rfl, by rw [List.getElem_cons_drop, List.take_append_drop]⟩

theorem next?_eq_none_iff {i : Item} : i.next? g = none ↔ i.isComplete g := by
  rw [next?, List.getElem?_eq_none_iff, isComplete, decide_eq_true_iff]

theorem next?_fits {i : Item} {x : Nat} (h : i.next? g = some x) : x ≠ endId ∧ x < g.symbols.size := by
  obtain ⟨p, hp, hrhs⟩ := exists_production h
  refine (g.fits p (List.mem_of_getElem? hp)).rhs x ?_
  rw [hrhs]
  simp

end Item

/-- An item stands before others only. -/
theorem ItemSet.nodup_items (s : ItemSet) : s.items.Nodup := by
  refine s.sorted.imp fun {i j} hij => ?_
  rintro rfl
  exact Item.not_before_self i hij

namespace Grammar

theorem mem_idsWhere {is : Nat → Bool} {q : Nat} :
    q ∈ g.idsWhere is ↔ ∃ p, g.productions[q]? = some p ∧ is p.lhs := by
  simp only [idsWhere, List.mem_filterMap, Option.ite_none_right_eq_some, Option.some.injEq]
  constructor
  · rintro ⟨⟨p, n⟩, hp, his, rfl⟩
    exact ⟨p, List.mem_zipIdx_iff_getElem?.mp hp, his⟩
  · rintro ⟨p, hp, his⟩
    exact ⟨(p, q), List.mem_zipIdx_iff_getElem?.mpr hp, his, rfl⟩

theorem mem_productionsOf {a q : Nat} :
    q ∈ g.productionsOf a ↔ ∃ p, g.productions[q]? = some p ∧ p.lhs = a := by
  simp [productionsOf, mem_idsWhere]

theorem mem_openers {a b : Nat} : b ∈ g.openers a ↔
    g.symbols.isNonterminal b ∧ ∃ (q : Nat) (p : Production),
      g.productions[q]? = some p ∧ p.lhs = a ∧ p.rhs.head? = some b := by
  simp only [openers, bodiesOf, List.mem_filter, List.mem_filterMap, List.mem_map, beq_iff_eq]
  constructor
  · rintro ⟨⟨-, ⟨p, ⟨hp, rfl⟩, rfl⟩, hb⟩, hn⟩
    obtain ⟨q, hq⟩ := List.getElem?_of_mem hp
    exact ⟨hn, q, p, hq, rfl, hb⟩
  · rintro ⟨hn, q, p, hq, rfl, hb⟩
    exact ⟨⟨_, ⟨p, ⟨List.mem_of_getElem? hq, rfl⟩, rfl⟩, hb⟩, hn⟩

theorem mem_awaited {items : List Item} {b : Nat} :
    b ∈ g.awaited items ↔ g.symbols.isNonterminal b ∧ ∃ i ∈ items, i.next? g = some b := by
  simp [awaited, and_comm]

theorem mem_expected {items : List Item} {b : Nat} :
    b ∈ g.expected items ↔ ∃ a ∈ g.awaited items, Leads g.openers a b := by
  refine mem_reach g.symbols.length_nonterminalIds_le (fun a ha => ?_) (fun a b hb => ?_)
  · exact g.symbols.mem_nonterminalIds.mpr (mem_awaited.mp ha).1
  · exact g.symbols.mem_nonterminalIds.mpr (mem_openers.mp hb).1

theorem mem_closure {s : ItemSet} {i : Item} : i ∈ g.closure s ↔
    i ∈ s ∨ ∃ q p, i = .atStart q ∧ g.productions[q]? = some p ∧ p.lhs ∈ g.expected s.items := by
  rw [closure, ItemSet.mem_insertAll, List.mem_map, or_comm]
  simp only [mem_idsWhere, List.contains_eq_mem, decide_eq_true_eq]
  refine or_congr_right ⟨?_, ?_⟩
  · rintro ⟨q, ⟨p, hp, hl⟩, rfl⟩
    exact ⟨q, p, rfl, hp, hl⟩
  · rintro ⟨q, p, rfl, hp, hl⟩
    exact ⟨q, ⟨p, hp, hl⟩, rfl⟩

theorem subset_closure {s : ItemSet} {i : Item} (h : i ∈ s) : i ∈ g.closure s :=
  mem_closure.mpr (.inl h)

theorem closure_closed {s : ItemSet} {i : Item} {q : Nat} {p : Production} (hi : i ∈ g.closure s)
    (hq : g.productions[q]? = some p) (hnext : i.next? g = some p.lhs) : .atStart q ∈ g.closure s := by
  have hn := (g.fits p (List.mem_of_getElem? hq)).lhs
  refine mem_closure.mpr (.inr ⟨q, p, rfl, hq, mem_expected.mpr ?_⟩)
  rcases mem_closure.mp hi with hi | ⟨q', p', rfl, hq', hl⟩
  · exact ⟨p.lhs, mem_awaited.mpr ⟨hn, i, hi, hnext⟩, .refl⟩
  · obtain ⟨a, ha, hlead⟩ := mem_expected.mp hl
    rw [Item.next?_atStart, rhs_eq hq'] at hnext
    exact ⟨a, ha, hlead.tail (mem_openers.mpr ⟨hn, q', p', hq', rfl, hnext⟩)⟩

theorem closure_induction {P : Item → Prop} {s : ItemSet} (hs : ∀ i ∈ s, P i)
    (hstart : ∀ i q p, P i → g.productions[q]? = some p → i.next? g = some p.lhs → P (.atStart q)) :
    ∀ i ∈ g.closure s, P i := by
  -- every nonterminal that is expected stands behind the dot of an item with the property
  have hwait : ∀ b ∈ g.expected s.items, ∃ i, P i ∧ i.next? g = some b := fun b hb => by
    obtain ⟨a, ha, hlead⟩ := mem_expected.mp hb
    induction hlead with
    | refl =>
      obtain ⟨-, i, hi, hnext⟩ := mem_awaited.mp ha
      exact ⟨i, hs i hi, hnext⟩
    | @tail c d hlead hd ih =>
      obtain ⟨i, hi, hnext⟩ := ih (mem_expected.mpr ⟨a, ha, hlead⟩)
      obtain ⟨-, q, p, hq, rfl, hhead⟩ := mem_openers.mp hd
      refine ⟨.atStart q, hstart i q p hi hq hnext, ?_⟩
      rw [Item.next?_atStart, rhs_eq hq, hhead]
  intro i hi
  rcases mem_closure.mp hi with hi | ⟨q, p, rfl, hq, hl⟩
  · exact hs i hi
  · obtain ⟨j, hj, hnext⟩ := hwait _ hl
    exact hstart j q p hj hq hnext

/-- An item of the closure is given, or it is the start of a production that another one waits for. -/
theorem closure_cases {s : ItemSet} {i : Item} (hi : i ∈ g.closure s) : i ∈ s ∨
    ∃ j ∈ g.closure s, ∃ q p, g.productions[q]? = some p ∧ j.next? g = some p.lhs ∧ i = .atStart q := by
  have hboth : ∀ i ∈ g.closure s, i ∈ g.closure s ∧ (i ∈ s ∨
      ∃ j ∈ g.closure s, ∃ q p, g.productions[q]? = some p ∧ j.next? g = some p.lhs ∧ i = .atStart q) := by
    refine closure_induction (fun j hj => ⟨subset_closure hj, .inl hj⟩) (fun j q p hj hq hnext => ?_)
    exact ⟨closure_closed hj.1 hq hnext, .inr ⟨j, hj.1, q, p, hq, hnext, rfl⟩⟩
  exact (hboth i hi).2

end Grammar

end ShiftReduce
