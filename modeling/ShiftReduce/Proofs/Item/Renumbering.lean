import ShiftReduce.Proofs.Automaton.Survey
import ShiftReduce.Proofs.Grammar.Reachable

/-!
# Items under other numbers of productions

Two grammars may have the same productions under different numbers (`Grammar.Renumbers`), where productions whose head
is not reached have no part: no item that a state can have is one of theirs (`Grammar.Live`). Closures, root kernels
and the kernels that a closed set leads to are then the same but for the numbers.
-/

namespace ShiftReduce

namespace Item

variable {f : Nat → Nat} {i j : Item}

def renumbered (f : Nat → Nat) (i : Item) : Item :=
  ⟨f i.production, i.dot⟩

theorem renumbered_inj (hf : Function.Injective f) : i.renumbered f = j.renumbered f ↔ i = j := by
  cases i; cases j
  simp only [renumbered, Item.mk.injEq, hf.eq_iff]

end Item

namespace ItemSet

variable {f : Nat → Nat} {s t : ItemSet} {i : Item}

def renumbered (f : Nat → Nat) (s : ItemSet) : ItemSet :=
  ofList (s.items.map (Item.renumbered f))

theorem mem_renumbered : i ∈ s.renumbered f ↔ ∃ j ∈ s, j.renumbered f = i := by
  rw [renumbered, mem_ofList, List.mem_map]
  rfl

theorem renumbered_mem (hf : Function.Injective f) : i.renumbered f ∈ s.renumbered f ↔ i ∈ s := by
  rw [mem_renumbered]
  constructor
  · rintro ⟨j, hj, heq⟩
    exact (Item.renumbered_inj hf).mp heq ▸ hj
  · exact fun hi => ⟨i, hi, rfl⟩

theorem renumbered_inj (hf : Function.Injective f) : s.renumbered f = t.renumbered f ↔ s = t := by
  refine ⟨fun h => ext_mem fun i => ?_, fun h => h ▸ rfl⟩
  rw [← renumbered_mem hf, h, renumbered_mem hf]

theorem perm_items_renumbered (hf : Function.Injective f) (s : ItemSet) :
    (s.renumbered f).items.Perm (s.items.map (Item.renumbered f)) := by
  have hinj : Function.Injective (Item.renumbered f) := fun _ _ h => (Item.renumbered_inj hf).mp h
  refine (List.perm_ext_iff_of_nodup (nodup_items _) ((nodup_items s).map hinj)).mpr fun i => ?_
  rw [List.mem_map]
  exact mem_renumbered

theorem renumbered_id : s.renumbered id = s := by
  refine ext_mem fun i => ?_
  rw [mem_renumbered]
  exact ⟨fun ⟨j, hj, heq⟩ => heq ▸ hj, fun hi => ⟨i, hi, rfl⟩⟩

theorem renumbered_diff (hf : Function.Injective f) : (s.renumbered f).diff (t.renumbered f) = (s.diff t).renumbered f := by
  refine ext_mem fun i => ?_
  simp only [mem_diff, mem_renumbered]
  constructor
  · rintro ⟨⟨j, hj, rfl⟩, hnot⟩
    exact ⟨j, ⟨hj, fun ht => hnot ⟨j, ht, rfl⟩⟩, rfl⟩
  · rintro ⟨j, ⟨hj, hnot⟩, rfl⟩
    refine ⟨⟨j, hj, rfl⟩, ?_⟩
    rintro ⟨k, hk, heq⟩
    exact hnot ((Item.renumbered_inj hf).mp heq ▸ hk)

end ItemSet

namespace Grammar

variable {f : Nat → Nat} {g g' : Grammar} {s : ItemSet} {i : Item} {is is' : List Item} {x q : Nat} {p : Production}

/-- The item belongs to a production whose head is reached. -/
def Live (g : Grammar) (i : Item) : Prop :=
  ∃ p, g.productions[i.production]? = some p ∧ g.Reaches p.lhs

theorem Live.next (h : g.Live i) (hnext : i.next? g = some x) : g.Reaches x := by
  obtain ⟨p, hp, hreach⟩ := h
  obtain ⟨p', hp', hrhs⟩ := Item.exists_production hnext
  obtain rfl := Option.some.inj (hp.symm.trans hp')
  refine hreach.of_mem_rhs (List.mem_of_getElem? hp) ?_
  rw [hrhs]
  exact List.mem_append_right _ List.mem_cons_self

theorem live_rootKernel : ∀ i ∈ g.rootKernel, g.Live i := by
  intro i hi
  obtain ⟨q, p, hp, hl, rfl⟩ := mem_rootKernel.mp hi
  exact ⟨p, hp, hl ▸ .start⟩

theorem live_closure (hs : ∀ i ∈ s, g.Live i) : ∀ i ∈ g.closure s, g.Live i :=
  closure_induction hs fun _ _ p hi hq hnext => ⟨p, hq, hi.next hnext⟩

theorem live_successorsOf {e : Nat × ItemSet} (hs : ∀ i ∈ s, g.Live i) (he : e ∈ g.successorsOf s) :
    ∀ i ∈ e.2, g.Live i := by
  intro i hi
  obtain ⟨x, kernel⟩ := e
  obtain ⟨-, rfl⟩ := mem_successors.mp he
  obtain ⟨j, hj, -, rfl⟩ := mem_moveOver.mp hi
  exact live_closure hs j hj

/-- The productions of `g` whose head is reached are those of `g'` whose head `g` reaches, with the numbers that `f`
gives them. -/
structure Renumbers (f : Nat → Nat) (g g' : Grammar) : Prop where
  injective : Function.Injective f
  symbols : g'.symbols = g.symbols
  start : g'.start = g.start
  production : ∀ q p, g.productions[q]? = some p → g.Reaches p.lhs → g'.productions[f q]? = some p
  exists_number : ∀ n p, g'.productions[n]? = some p → g.Reaches p.lhs → ∃ q, f q = n ∧ g.productions[q]? = some p

namespace Renumbers

theorem refl (g : Grammar) : Renumbers id g g :=
  ⟨Function.injective_id, rfl, rfl, fun _ _ hq _ => hq, fun n _ hn _ => ⟨n, rfl, hn⟩⟩

theorem rhs_eq (h : Renumbers f g g') (hi : g.Live i) : g'.rhs (f i.production) = g.rhs i.production := by
  obtain ⟨p, hp, hreach⟩ := hi
  rw [Grammar.rhs_eq hp, Grammar.rhs_eq (h.production _ p hp hreach)]

theorem next?_eq (h : Renumbers f g g') (hi : g.Live i) : (i.renumbered f).next? g' = i.next? g := by
  rw [Item.next?, Item.next?, ← h.rhs_eq hi]
  rfl

theorem isComplete_eq (h : Renumbers f g g') (hi : g.Live i) : (i.renumbered f).isComplete g' = i.isComplete g := by
  rw [Item.isComplete, Item.isComplete, ← h.rhs_eq hi]
  rfl

theorem rootKernel_eq (h : Renumbers f g g') : g'.rootKernel = g.rootKernel.renumbered f := by
  refine ItemSet.ext_mem fun i => ?_
  rw [ItemSet.mem_renumbered, mem_rootKernel]
  constructor
  · rintro ⟨n, p, hp, hl, rfl⟩
    obtain ⟨q, rfl, hq⟩ := h.exists_number n p hp (hl ▸ h.start ▸ .start)
    exact ⟨.atStart q, mem_rootKernel.mpr ⟨q, p, hq, hl.trans h.start, rfl⟩, rfl⟩
  · rintro ⟨_, hj, rfl⟩
    obtain ⟨q, p, hq, hl, rfl⟩ := mem_rootKernel.mp hj
    exact ⟨f q, p, h.production q p hq (hl ▸ .start), hl.trans h.start.symm, rfl⟩

theorem closure_eq (h : Renumbers f g g') (hs : ∀ i ∈ s, g.Live i) :
    g'.closure (s.renumbered f) = (g.closure s).renumbered f := by
  refine ItemSet.ext_mem fun i => ⟨?_, ?_⟩
  · refine closure_induction (fun i hi => ?_) (fun i n p hi hn hnext => ?_) i
    · obtain ⟨j, hj, rfl⟩ := ItemSet.mem_renumbered.mp hi
      exact ItemSet.mem_renumbered.mpr ⟨j, subset_closure hj, rfl⟩
    · obtain ⟨j, hj, rfl⟩ := ItemSet.mem_renumbered.mp hi
      have hlive := live_closure hs j hj
      rw [h.next?_eq hlive] at hnext
      obtain ⟨q, rfl, hq⟩ := h.exists_number n p hn (hlive.next hnext)
      exact ItemSet.mem_renumbered.mpr ⟨.atStart q, closure_closed hj hq hnext, rfl⟩
  · intro hi
    obtain ⟨j, hj, rfl⟩ := ItemSet.mem_renumbered.mp hi
    -- all that the closure adds is live, so `g'` has it under its own number
    have hboth : ∀ i ∈ g.closure s, g.Live i ∧ i.renumbered f ∈ g'.closure (s.renumbered f) := by
      refine closure_induction (fun i hi => ?_) (fun i q p hi hq hnext => ?_)
      · exact ⟨hs i hi, subset_closure (ItemSet.mem_renumbered.mpr ⟨i, hi, rfl⟩)⟩
      · have hreach := hi.1.next hnext
        rw [← h.next?_eq hi.1] at hnext
        exact ⟨⟨p, hq, hreach⟩, closure_closed hi.2 (h.production q p hq hreach) hnext⟩
    exact (hboth j hj).2

/-- What waits for a symbol is the same, whatever order it is listed in. -/
theorem exists_next_iff (h : Renumbers f g g') (hs : ∀ i ∈ is, g.Live i)
    (his : ∀ i, i ∈ is' ↔ ∃ j ∈ is, j.renumbered f = i) {P : Item → Prop} :
    (∃ i ∈ is', i.next? g' = some x ∧ P i) ↔ ∃ i ∈ is, i.next? g = some x ∧ P (i.renumbered f) := by
  constructor
  · rintro ⟨_, hi, hnext, hP⟩
    obtain ⟨j, hj, rfl⟩ := (his _).mp hi
    exact ⟨j, hj, (h.next?_eq (hs j hj)).symm.trans hnext, hP⟩
  · rintro ⟨j, hj, hnext, hP⟩
    exact ⟨_, (his _).mpr ⟨j, hj, rfl⟩, (h.next?_eq (hs j hj)).trans hnext, hP⟩

theorem nextSymbols_eq (h : Renumbers f g g') (hs : ∀ i ∈ is, g.Live i)
    (his : ∀ i, i ∈ is' ↔ ∃ j ∈ is, j.renumbered f = i) :
    g'.nextSymbols (g'.waiting is') = g.nextSymbols (g.waiting is) := by
  rw [nextSymbols, nextSymbols, h.symbols]
  refine List.filter_congr fun x _ => ?_
  rw [Bool.eq_iff_iff]
  simpa [mem_waiting] using h.exists_next_iff hs his (x := x) (P := fun _ => True)

theorem moveOver_eq (h : Renumbers f g g') (hs : ∀ i ∈ is, g.Live i)
    (his : ∀ i, i ∈ is' ↔ ∃ j ∈ is, j.renumbered f = i) :
    moveOver (g'.waiting is') x = (moveOver (g.waiting is) x).renumbered f := by
  refine ItemSet.ext_mem fun i => ?_
  rw [mem_moveOver, h.exists_next_iff hs his, ItemSet.mem_renumbered]
  constructor
  · rintro ⟨j, hj, hnext, rfl⟩
    exact ⟨j.shifted, mem_moveOver.mpr ⟨j, hj, hnext, rfl⟩, rfl⟩
  · rintro ⟨_, hk, rfl⟩
    obtain ⟨j, hj, hnext, rfl⟩ := mem_moveOver.mp hk
    exact ⟨j, hj, hnext, rfl⟩

theorem successors_eq (h : Renumbers f g g') (hs : ∀ i ∈ is, g.Live i)
    (his : ∀ i, i ∈ is' ↔ ∃ j ∈ is, j.renumbered f = i) :
    g'.successors is' = (g.successors is).map fun e => (e.1, e.2.renumbered f) := by
  simp only [successors, h.nextSymbols_eq hs his, h.moveOver_eq hs his, List.map_map]
  rfl

theorem successorsOf_eq (h : Renumbers f g g') (hs : ∀ i ∈ s, g.Live i) :
    g'.successorsOf (s.renumbered f) = (g.successorsOf s).map fun e => (e.1, e.2.renumbered f) := by
  rw [successorsOf, successorsOf, h.closure_eq hs]
  exact h.successors_eq (live_closure hs) fun _ => ItemSet.mem_renumbered

end Renumbers

end Grammar

end ShiftReduce
