import Mathlib.Data.List.Nodup
import Mathlib.Data.List.Sublists
import ShiftReduce.Automaton.Collection
import ShiftReduce.Proofs.Item.Closure

/-!
# The survey of kernels is complete

`Survey.explored_of`: every kernel that a state of the finished survey leads to is the kernel of a state.
The states of a survey have different kernels, all made of items of the grammar, so there are at most
`kernelBound` of them (`Survey.Inv.size_le`), and that many rounds look at every state.
-/

namespace ShiftReduce

variable {g : Grammar}

theorem Grammar.mem_allItems {i : Item} :
    i ∈ g.allItems ↔ ∃ p, g.productions[i.production]? = some p ∧ i.dot ≤ p.rhs.length := by
  obtain ⟨q, d⟩ := i
  simp only [allItems, List.mem_flatMap, List.mem_map, List.mem_range, Item.mk.injEq]
  constructor
  · rintro ⟨⟨p, n⟩, hp, d', hd, rfl, rfl⟩
    exact ⟨p, List.mem_zipIdx_iff_getElem?.mp hp, Nat.lt_succ_iff.mp hd⟩
  · rintro ⟨p, hp, hd⟩
    exact ⟨(p, q), List.mem_zipIdx_iff_getElem?.mpr hp, d, Nat.lt_succ_iff.mpr hd, rfl, rfl⟩

namespace Grammar

variable {items : List Item} {x : Nat}

theorem mem_waiting {i : Item} : (x, i) ∈ g.waiting items ↔ i ∈ items ∧ i.next? g = some x := by
  simp only [waiting, List.mem_filterMap, Option.map_eq_some_iff, Prod.mk.injEq]
  constructor
  · rintro ⟨j, hj, y, hy, rfl, rfl⟩
    exact ⟨hj, hy⟩
  · rintro ⟨hi, hx⟩
    exact ⟨i, hi, x, hx, rfl, rfl⟩

theorem mem_nextSymbols : x ∈ g.nextSymbols (g.waiting items) ↔ ∃ i ∈ items, i.next? g = some x := by
  simp only [nextSymbols, List.mem_filter, List.mem_range, List.contains_eq_mem, mem_distinct,
    decide_eq_true_eq, List.mem_map, Prod.exists, exists_and_right, exists_eq_right, mem_waiting]
  refine and_iff_right_of_imp ?_
  rintro ⟨_, _, hi⟩
  exact (Item.next?_fits hi).2

theorem mem_moveOver {i : Item} :
    i ∈ moveOver (g.waiting items) x ↔ ∃ j ∈ items, j.next? g = some x ∧ i = j.shifted := by
  simp only [moveOver, ItemSet.mem_ofList, List.mem_map, List.mem_filter, beq_iff_eq]
  constructor
  · rintro ⟨⟨y, j⟩, ⟨hj, rfl⟩, rfl⟩
    obtain ⟨hj, hy⟩ := mem_waiting.mp hj
    exact ⟨j, hj, hy, rfl⟩
  · rintro ⟨j, hj, hx, rfl⟩
    exact ⟨(x, j), ⟨mem_waiting.mpr ⟨hj, hx⟩, rfl⟩, rfl⟩

theorem mem_successors {kernel : ItemSet} : (x, kernel) ∈ g.successors items ↔
    (∃ i ∈ items, i.next? g = some x) ∧ kernel = moveOver (g.waiting items) x := by
  simp only [successors, List.mem_map, Prod.mk.injEq, mem_nextSymbols]
  constructor
  · rintro ⟨y, hy, rfl, rfl⟩
    exact ⟨hy, rfl⟩
  · rintro ⟨hx, rfl⟩
    exact ⟨x, hx, rfl, rfl⟩

theorem shifted_mem_allItems {i : Item} (h : i.next? g = some x) : i.shifted ∈ g.allItems := by
  obtain ⟨p, hp, -⟩ := Item.exists_production h
  rw [Item.next?, rhs_eq hp] at h
  exact mem_allItems.mpr ⟨p, hp, (List.getElem?_eq_some_iff.mp h).1⟩

theorem mem_rootKernel {i : Item} :
    i ∈ g.rootKernel ↔ ∃ q p, g.productions[q]? = some p ∧ p.lhs = g.start ∧ i = .atStart q := by
  simp only [rootKernel, ItemSet.mem_ofList, List.mem_map, mem_productionsOf]
  constructor
  · rintro ⟨q, ⟨p, hp, hl⟩, rfl⟩
    exact ⟨q, p, hp, hl, rfl⟩
  · rintro ⟨q, p, hp, hl, rfl⟩
    exact ⟨q, ⟨p, hp, hl⟩, rfl⟩

end Grammar

namespace Survey

variable {v v' : Survey} {kernel : ItemSet} {n : Nat}

/-- The kernels by the numbers of their states. -/
def kernels (v : Survey) : List ItemSet :=
  v.seeds.toList.map (·.kernel)

theorem find?_isSome : (v.find? kernel).isSome ↔ kernel ∈ v.kernels := by
  simp only [find?_eq, List.findIdx?_isSome, kernels, List.any_eq_true, List.mem_map, decide_eq_true_eq]

theorem seed_of_find? (h : v.find? kernel = some n) :
    ∃ seed, v.seeds[n]? = some seed ∧ seed.kernel = kernel := by
  rw [find?_eq, List.findIdx?_eq_some_iff_getElem] at h
  obtain ⟨hn, hk, -⟩ := h
  exact ⟨v.seeds.toList[n], by simp, by simpa using hk⟩

theorem meet_cases (i : Nat) (v : Survey) (e : Nat × ItemSet) :
    (e.2 ∈ v.kernels ∧ (meet i v e).seeds = v.seeds) ∨
      (e.2 ∉ v.kernels ∧ (meet i v e).seeds = v.seeds.push ⟨e.2, some (i, e.1)⟩) := by
  unfold meet
  split
  · next h => exact .inl ⟨find?_isSome.mp (by simp [h]), rfl⟩
  · next h => exact .inr ⟨fun hk => by simpa [h] using find?_isSome.mpr hk, rfl⟩

/-- What every survey on the way keeps: its first state, different kernels, items of the grammar. -/
structure Inv (g : Grammar) (v : Survey) : Prop where
  root : v.seeds[0]? = some ⟨g.rootKernel, none⟩
  nodup : v.kernels.Nodup
  items : ∀ kernel ∈ v.kernels, ∀ i ∈ kernel, i ∈ g.allItems

/-- The states below `n` lead to kernels that are known. -/
def Explored (g : Grammar) (v : Survey) (n : Nat) : Prop :=
  ∀ i < n, ∀ seed, v.seeds[i]? = some seed → ∀ e ∈ g.successorsOf seed.kernel, e.2 ∈ v.kernels

namespace Inv

theorem first : Inv g (first g.rootKernel) := by
  refine ⟨rfl, by simp [kernels, Survey.first], fun kernel hk i hi => ?_⟩
  obtain rfl : kernel = g.rootKernel := by simpa [kernels, Survey.first] using hk
  obtain ⟨q, p, hp, -, rfl⟩ := Grammar.mem_rootKernel.mp hi
  exact Grammar.mem_allItems.mpr ⟨p, hp, Nat.zero_le _⟩

theorem meet (h : Inv g v) (i : Nat) {e : Nat × ItemSet} {kernel : ItemSet}
    (he : e ∈ g.successorsOf kernel) : Inv g (meet i v e) := by
  rcases meet_cases i v e with ⟨-, hs⟩ | ⟨hk, hs⟩
  · exact ⟨by rw [hs]; exact h.root, by rw [kernels, hs]; exact h.nodup,
      by rw [kernels, hs]; exact h.items⟩
  · have hkernels : (Survey.meet i v e).kernels = v.kernels ++ [e.2] := by simp [kernels, hs]
    refine ⟨?_, ?_, ?_⟩
    · have hpos : 0 < v.seeds.size := (Array.getElem?_eq_some_iff.mp h.root).1
      rw [hs, Array.getElem?_push_lt hpos, ← Array.getElem?_eq_getElem hpos]
      exact h.root
    · rw [hkernels, List.nodup_append]
      refine ⟨h.nodup, List.nodup_singleton _, fun k hk' l hl e' => hk ?_⟩
      rwa [← List.mem_singleton.mp hl, ← e']
    · intro k hk' i hi
      rw [hkernels] at hk'
      rcases List.mem_append.mp hk' with hk' | hk'
      · exact h.items k hk' i hi
      · obtain ⟨x, k'⟩ := e
        obtain rfl : k = k' := List.mem_singleton.mp hk'
        rw [(Grammar.mem_successors.mp he).2] at hi
        obtain ⟨j, -, hx, rfl⟩ := Grammar.mem_moveOver.mp hi
        exact Grammar.shifted_mem_allItems hx

/-- A set of items is known by its members among the items of the grammar, of which there are so many
choices. -/
theorem size_le (h : Inv g v) : v.seeds.size ≤ g.kernelBound := by
  have hnodup : (v.kernels.map fun k => g.allItems.filter (· ∈ k)).Nodup := by
    refine List.Nodup.map_on (fun k hk l hl e => ItemSet.ext_mem fun i => ?_) h.nodup
    have hi := congrArg (i ∈ ·) e
    simp only [List.mem_filter, decide_eq_true_eq, eq_iff_iff] at hi
    exact ⟨fun hik => (hi.mp ⟨h.items k hk i hik, hik⟩).2, fun hil => (hi.mpr ⟨h.items l hl i hil, hil⟩).2⟩
  have hsub : (v.kernels.map fun k => g.allItems.filter (· ∈ k)) ⊆ g.allItems.sublists := by
    intro is his
    obtain ⟨k, -, rfl⟩ := List.mem_map.mp his
    exact List.mem_sublists.mpr List.filter_sublist
  have hle := List.Nodup.length_le_of_subset hnodup hsub
  rw [List.length_map, List.length_sublists] at hle
  simpa [kernels, Grammar.kernelBound] using hle

end Inv

theorem prefix_meetAll (i : Nat) (es : List (Nat × ItemSet)) (v : Survey) :
    v.seeds.toList <+: (es.foldl (meet i) v).seeds.toList := by
  induction es generalizing v with
  | nil => exact List.prefix_refl _
  | cons e es ih =>
    refine List.IsPrefix.trans ?_ (ih (meet i v e))
    rcases meet_cases i v e with ⟨-, hs⟩ | ⟨-, hs⟩ <;> simp [hs]

theorem kernels_subset (h : v.seeds.toList <+: v'.seeds.toList) : v.kernels ⊆ v'.kernels :=
  List.map_subset _ h.subset

theorem Inv.meetAll (h : Inv g v) (i : Nat) {es : List (Nat × ItemSet)} {kernel : ItemSet}
    (hes : es ⊆ g.successorsOf kernel) : Inv g (es.foldl (Survey.meet i) v) := by
  induction es generalizing v with
  | nil => exact h
  | cons e es ih =>
    exact ih (h.meet i (hes List.mem_cons_self)) fun e he => hes (List.mem_cons_of_mem _ he)

theorem mem_kernels_meetAll (i : Nat) {es : List (Nat × ItemSet)} {e : Nat × ItemSet} (he : e ∈ es)
    (v : Survey) : e.2 ∈ (es.foldl (meet i) v).kernels := by
  induction es generalizing v with
  | nil => exact absurd he List.not_mem_nil
  | cons e' es ih =>
    rcases List.mem_cons.mp he with rfl | he
    · refine kernels_subset (prefix_meetAll i es (meet i v e)) ?_
      rcases meet_cases i v e with ⟨hk, hs⟩ | ⟨-, hs⟩
      · rwa [kernels, hs]
      · simp [kernels, hs]
    · exact ih he _

theorem seed_mono {seed : Seed} (hp : v.seeds.toList <+: v'.seeds.toList) (h : v.seeds[n]? = some seed) :
    v'.seeds[n]? = some seed := by
  obtain ⟨more, hmore⟩ := hp
  rw [← Array.getElem?_toList] at h ⊢
  rw [← hmore, List.getElem?_append_left (List.getElem?_eq_some_iff.mp h).1, h]

theorem Explored.mono (h : Explored g v n) (hn : n ≤ v.seeds.size)
    (hp : v.seeds.toList <+: v'.seeds.toList) : Explored g v' n := by
  intro i hi seed hseed e he
  have hold : v.seeds[i]? = some v.seeds[i] := Array.getElem?_eq_getElem (hi.trans_le hn)
  obtain rfl := Option.some.inj ((seed_mono hp hold).symm.trans hseed)
  exact kernels_subset hp (h i hi _ hold e he)

theorem Explored.next {seed : Seed} (h : Explored g v n) (hn : v.seeds[n]? = some seed) :
    Explored g ((g.successorsOf seed.kernel).foldl (meet n) v) (n + 1) := by
  have hlt : n < v.seeds.size := (Array.getElem?_eq_some_iff.mp hn).1
  intro i hi seed' hseed e he
  rcases Nat.lt_succ_iff_lt_or_eq.mp hi with hi | rfl
  · exact h.mono hlt.le (prefix_meetAll _ _ _) i hi seed' hseed e he
  · have hkept := seed_mono (prefix_meetAll i (g.successorsOf seed.kernel) v) hn
    obtain rfl := Option.some.inj (hkept.symm.trans hseed)
    exact mem_kernels_meetAll i he v

/-- Exploring goes on until all states are explored or the rounds are used up. -/
theorem explored_exploreFrom {rounds : Nat} (hinv : Inv g v) (h : Explored g v n) (hn : n ≤ v.seeds.size) :
    Inv g (exploreFrom g rounds n v) ∧ ∃ m, Explored g (exploreFrom g rounds n v) m ∧
      (m = (exploreFrom g rounds n v).seeds.size ∨
        m = n + rounds ∧ m ≤ (exploreFrom g rounds n v).seeds.size) := by
  induction rounds generalizing n v with
  | zero => exact ⟨hinv, n, h, .inr ⟨rfl, hn⟩⟩
  | succ rounds ih =>
    rw [exploreFrom]
    split
    · next hnone =>
      have := Array.getElem?_eq_none_iff.mp hnone
      exact ⟨hinv, n, h, .inl (by omega)⟩
    · next seed hseed =>
      have hlt : n < v.seeds.size := (Array.getElem?_eq_some_iff.mp hseed).1
      have hle := (prefix_meetAll n (g.successorsOf seed.kernel) v).length_le
      simp only [Array.length_toList] at hle
      obtain ⟨hinv, m, hm, hcases⟩ := ih (hinv.meetAll n (List.Subset.refl _)) (h.next hseed) (by omega)
      exact ⟨hinv, m, hm, hcases.imp_right fun ⟨h, h'⟩ => ⟨by omega, h'⟩⟩

theorem finished (g : Grammar) : Inv g (Survey.of g) ∧ ∃ m, Explored g (Survey.of g) m ∧
    (m = (Survey.of g).seeds.size ∨ m = 0 + g.kernelBound ∧ m ≤ (Survey.of g).seeds.size) :=
  explored_exploreFrom .first (fun _ hi => absurd hi (Nat.not_lt_zero _)) (Nat.zero_le _)

/-- Every state of the finished survey leads to kernels of states only. -/
theorem explored_of (g : Grammar) : Explored g (Survey.of g) (Survey.of g).seeds.size := by
  obtain ⟨hinv, m, hm, rfl | ⟨rfl, hle⟩⟩ := finished g
  · exact hm
  · have hsize := hinv.size_le
    rwa [Nat.le_antisymm hle (by omega)] at hm

end Survey

end ShiftReduce
