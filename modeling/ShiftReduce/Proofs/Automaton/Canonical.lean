import ShiftReduce.Proofs.Automaton.Queue
import ShiftReduce.Proofs.Automaton.Recognition

/-!
# The automaton is the canonical collection

`Canonical` says what a collection of states has to be: state 0 starts the start symbol, no kernel occurs twice,
every state is closed, edges move the items of their state and all states can be come to. `canonical_of`: the
automaton of every grammar is such a collection, under all options, and the work queue that makes it runs empty.
-/

namespace ShiftReduce

namespace Survey

variable {g : Grammar} {v : Survey} {seed parent : Seed} {n i x : Nat}

/-- What holds of the first survey and is kept when a kernel is met that a state leads to holds in the end. -/
theorem of_induction {P : Survey → Prop} (hfirst : P (first g.rootKernel))
    (hmeet : ∀ v i seed e, P v → v.seeds[i]? = some seed → e ∈ g.successorsOf seed.kernel → P (meet i v e)) :
    P (of g) := by
  have hall : ∀ (i : Nat) (seed : Seed) (es : List (Nat × ItemSet)) (v : Survey), P v → v.seeds[i]? = some seed →
      es ⊆ g.successorsOf seed.kernel → P (es.foldl (meet i) v) := by
    intro i seed es
    induction es with
    | nil => exact fun v hv _ _ => hv
    | cons e es ih =>
      intro v hv hseed hes
      -- the state that leads to the rest is still there after `e` was met
      refine ih (meet i v e) (hmeet v i seed e hv hseed (hes List.mem_cons_self)) ?_ (List.subset_of_cons_subset hes)
      exact seed_mono (prefix_meetAll i [e] v) hseed
  have hexplore : ∀ (rounds i : Nat) (v : Survey), P v → P (exploreFrom g rounds i v) := by
    intro rounds
    induction rounds with
    | zero => exact fun _ _ hv => hv
    | succ rounds ih =>
      intro i v hv
      cases hseed : v.seeds[i]? with
      | none => rwa [exploreFrom_of_none hseed]
      | some seed =>
        rw [exploreFrom_of_some hseed]
        exact ih _ _ (hall i seed _ v hv hseed (List.Subset.refl _))
  exact hexplore _ _ _ hfirst

/-- Every state but state 0 was first met from an earlier state, by an edge of that state. -/
def Descends (g : Grammar) (v : Survey) : Prop :=
  ∀ n seed, v.seeds[n]? = some seed → n = 0 ∨ ∃ i x parent, seed.parent = some (i, x) ∧ i < n ∧
    v.seeds[i]? = some parent ∧ (x, seed.kernel) ∈ g.successorsOf parent.kernel

theorem descends_first : Descends g (first g.rootKernel) := by
  intro n seed hseed
  have hlt := (Array.getElem?_eq_some_iff.mp hseed).1
  exact .inl (Nat.lt_one_iff.mp hlt)

theorem Descends.meet (h : Descends g v) {e : Nat × ItemSet} (hparent : v.seeds[i]? = some parent)
    (he : e ∈ g.successorsOf parent.kernel) : Descends g (meet i v e) := by
  intro n seed hseed
  have hpre := prefix_meetAll i [e] v
  have hold : v.seeds[n]? = some seed → n = 0 ∨ ∃ i' x parent, seed.parent = some (i', x) ∧ i' < n ∧
      (Survey.meet i v e).seeds[i']? = some parent ∧ (x, seed.kernel) ∈ g.successorsOf parent.kernel := by
    intro hn
    refine (h n seed hn).imp_right ?_
    rintro ⟨i', x, parent', hp, hlt, hi', hx⟩
    exact ⟨i', x, parent', hp, hlt, seed_mono hpre hi', hx⟩
  cases hfind : v.find? e.2 with
  | some m =>
    rw [meet_of_known i hfind] at hseed
    exact hold hseed
  | none =>
    have hlt := (Array.getElem?_eq_some_iff.mp hparent).1
    rw [meet_of_new i hfind, ← Array.getElem?_toList, toList_seeds_add, List.getElem?_append] at hseed
    split at hseed
    · rw [Array.getElem?_toList] at hseed
      exact hold hseed
    · next hn =>
      obtain rfl : (⟨e.2, some (i, e.1)⟩ : Seed) = seed := by
        have hmem := List.mem_of_getElem? hseed
        exact (List.mem_singleton.mp hmem).symm
      rw [Array.length_toList] at hn
      exact .inr ⟨i, e.1, parent, rfl, by omega, seed_mono hpre hparent, he⟩

theorem descends_of (g : Grammar) : Descends g (of g) :=
  of_induction descends_first fun _ _ _ _ hv hseed he => hv.meet hseed he

/-- The number of a kernel is where it stands. -/
theorem find?_of_seed (hnodup : v.kernels.Nodup) (h : v.seeds[n]? = some seed) : v.find? seed.kernel = some n := by
  obtain ⟨m, hm⟩ := Option.isSome_iff_exists.mp (find?_isSome.mpr (List.mem_map_of_mem
    (Array.mem_toList_iff.mpr (Array.mem_of_getElem? h))))
  obtain ⟨seed', hseed', hk⟩ := seed_of_find? hm
  rw [← Array.getElem?_toList] at h hseed'
  have hn : v.kernels[n]? = some seed.kernel := by rw [kernels, List.getElem?_map, h]; rfl
  have hm' : v.kernels[m]? = some seed.kernel := by rw [kernels, List.getElem?_map, hseed', ← hk]; rfl
  have hlt := (List.getElem?_eq_some_iff.mp hm').1
  rw [hm, (List.getElem?_inj hlt hnodup).mp (hm'.trans hn.symm)]

/-- The items of a state are different ones. -/
theorem nodup_items_state : (v.state g seed).items.Nodup := by
  refine List.nodup_append.mpr ⟨ItemSet.nodup_items _, ItemSet.nodup_items _, fun i hi j hj heq => ?_⟩
  exact (ItemSet.mem_diff.mp hj).2 (heq ▸ hi)

end Survey

namespace Automaton

/-- A collection of states is the canonical one of a grammar. -/
structure Canonical (g : Grammar) (a : Automaton) : Prop where
  /-- state 0 has the productions of the start symbol, with nothing recognized -/
  root : ∃ s, a.states[0]? = some s ∧
    ∀ i, i ∈ s.kernel ↔ ∃ q p, g.productions[q]? = some p ∧ p.lhs = g.start ∧ i = .atStart q
  /-- a kernel is that of one state -/
  distinct : (a.states.map (·.kernel)).Nodup
  /-- the number of a state is where it stands -/
  numbered : ∀ n s, a.states[n]? = some s → a.find? s.kernel = some n
  /-- closure adds what is not in the kernel -/
  added : ∀ s ∈ a.states, s.added = (g.closure s.kernel).diff s.kernel
  /-- there is an edge where an item waits for the symbol -/
  edge : ∀ n s x, a.states[n]? = some s → ((∃ m, a.transition? n x = some m) ↔ ∃ i ∈ s.items, i.next? g = some x)
  /-- an edge leads to the state of the moved items -/
  target : ∀ n s x m, a.states[n]? = some s → a.transition? n x = some m → ∃ t, a.states[m]? = some t ∧
    ∀ i, i ∈ t.kernel ↔ ∃ j ∈ s.items, j.next? g = some x ∧ i = j.shifted
  /-- every state is come to from state 0 -/
  reached : ∀ n < a.states.length, ∃ xs, a.leads? xs = some n
  /-- the candidates are the productions with nothing left behind the dot, each of them once -/
  candidates : ∀ s ∈ a.states, s.candidates.Nodup ∧
    ∀ q, q ∈ s.candidates ↔ ∃ i ∈ s.items, i.production = q ∧ i.next? g = none

variable {g : Grammar} {options : Options} {s : State} {n m x : Nat}

theorem kernels_states : (of options g).states.map (·.kernel) = (Survey.of g).kernels := by
  change ((Survey.of g).seeds.toList.map ((Survey.of g).state g)).map (·.kernel) = _
  rw [List.map_map]
  rfl

theorem find?_eq (kernel : ItemSet) : (of options g).find? kernel = (Survey.of g).find? kernel := by
  change ((Survey.of g).seeds.toList.map ((Survey.of g).state g)).findIdx? _ = _
  rw [List.findIdx?_map, Survey.find?_eq]
  rfl

theorem exists_state_of_transition? (hs : (of options g).states[n]? = some s)
    (h : (of options g).transition? n x = some m) : ∃ t, (of options g).states[m]? = some t ∧
      ∀ i, i ∈ t.kernel ↔ ∃ j ∈ s.items, j.next? g = some x ∧ i = j.shifted := by
  obtain ⟨seed, hseed, rfl⟩ := getElem?_states.mp hs
  obtain ⟨seed', hseed', -, hfind⟩ := transition?_eq_some.mp h
  obtain rfl := Option.some.inj (hseed.symm.trans hseed')
  obtain ⟨target, htarget, hkernel⟩ := Survey.seed_of_find? hfind
  refine ⟨_, getElem?_states.mpr ⟨target, htarget, rfl⟩, fun i => ?_⟩
  change i ∈ target.kernel ↔ _
  simp only [hkernel, Survey.targetKernel, Grammar.mem_moveOver, Survey.mem_items_state]
  rfl

theorem exists_transition?_iff (hs : (of options g).states[n]? = some s) :
    (∃ m, (of options g).transition? n x = some m) ↔ ∃ i ∈ s.items, i.next? g = some x := by
  have hitems : ∀ i, i ∈ (of options g).itemsAt n ↔ i ∈ s.items := by simp [itemsAt, hs]
  constructor
  · rintro ⟨m, hm⟩
    obtain ⟨i, hi, hnext⟩ := exists_next_of_transition? hm
    exact ⟨i, (hitems i).mp hi, hnext⟩
  · rintro ⟨i, hi, hnext⟩
    obtain ⟨m, hm, -⟩ := shifted_mem ((hitems i).mpr hi) hnext
    exact ⟨m, hm⟩

/-- Every state but state 0 has an earlier parent, with an edge to it. -/
theorem parent_cases (hs : (of options g).states[n]? = some s) : n = 0 ∧ s.parent = none ∨
    ∃ m x, s.parent = some (m, x) ∧ m < n ∧ (of options g).transition? m x = some n := by
  obtain ⟨seed, hseed, rfl⟩ := getElem?_states.mp hs
  rcases Survey.descends_of g n seed hseed with rfl | ⟨m, x, parent, hp, hlt, hparent, hx⟩
  · obtain rfl := Option.some.inj (hseed.symm.trans (Survey.finished g).1.root)
    exact .inl ⟨rfl, rfl⟩
  · obtain ⟨hnext, hkernel⟩ := Grammar.mem_successors.mp hx
    have hfind := Survey.find?_of_seed (Survey.finished g).1.nodup hseed
    rw [hkernel] at hfind
    exact .inr ⟨m, x, hp, hlt, transition?_eq_some.mpr ⟨parent, hparent, hnext, hfind⟩⟩

/-- Following the states back to those they were first met from, one comes to state 0. -/
theorem exists_leads? (options : Options) (g : Grammar) (n : Nat) (hn : n < (of options g).states.length) :
    ∃ xs, (of options g).leads? xs = some n := by
  induction n using Nat.strongRecOn with
  | ind n ih =>
    rcases parent_cases (List.getElem?_eq_getElem hn) with ⟨rfl, -⟩ | ⟨m, x, -, hlt, hedge⟩
    · exact ⟨[], leads?_nil⟩
    · obtain ⟨xs, hxs⟩ := ih m hlt (hlt.trans hn)
      exact ⟨xs ++ [x], leads?_concat_eq_some.mpr ⟨m, hxs, hedge⟩⟩

/-- The dot of a complete item is at the end, so two of them are of different productions. -/
theorem nodup_candidates (hs : (of options g).states[n]? = some s) : s.candidates.Nodup := by
  have hdot : ∀ i ∈ s.items, i.isComplete g → i.dot = (g.rhs i.production).length := by
    intro i hi hc
    have hmem : i ∈ (of options g).itemsAt n := mem_itemsAt_iff_items.mpr ⟨s, hs, hi⟩
    obtain ⟨p, hp, hle⟩ := Grammar.mem_allItems.mp (mem_allItems_of_mem_itemsAt hmem)
    rw [← Grammar.rhs_eq hp] at hle
    exact Nat.le_antisymm hle (of_decide_eq_true hc)
  obtain ⟨seed, -, rfl⟩ := getElem?_states.mp hs
  have hnodup : ((Survey.of g).state g seed).items.Nodup := Survey.nodup_items_state
  refine List.pairwise_filterMap.mpr (hnodup.imp_of_mem fun {i j} hi hj hne q hq q' hq' heq => ?_)
  simp only [Option.ite_none_right_eq_some, Option.some.injEq] at hq hq'
  obtain ⟨hci, rfl⟩ := hq
  obtain ⟨hcj, rfl⟩ := hq'
  have hdots : i.dot = j.dot := by rw [hdot i hi hci, hdot j hj hcj, heq]
  exact hne (congrArg₂ Item.mk heq hdots)

theorem mem_candidates_iff_next? (hs : s ∈ (of options g).states) {q : Nat} :
    q ∈ s.candidates ↔ ∃ i ∈ s.items, i.production = q ∧ i.next? g = none := by
  obtain ⟨n, hn⟩ := List.getElem?_of_mem hs
  obtain ⟨seed, -, rfl⟩ := getElem?_states.mp hn
  simp only [Survey.mem_candidates_state, Survey.mem_items_state, Item.next?_eq_none_iff, and_comm]

/-- The work queue runs empty when it has made the states and edges of the automaton. -/
theorem exists_queue (options : Options) (g : Grammar) :
    ∃ entries w, (WorkQueue.next g)^[entries] (WorkQueue.start g) = w ∧ w.waiting = [] ∧
      w.states = (of options g).states.map (fun s => ⟨s.kernel, s.parent⟩) ∧ w.reused = (of options g).reused ∧
      w.edges = (of options g).states.zipIdx.flatMap fun s => s.1.transitions.map fun e => (s.2, e) := by
  obtain ⟨entries, w, hw, hwaiting, hstates, hreused, hedges⟩ := WorkQueue.empties g
  have hof : (of options g).states = (Survey.of g).seeds.toList.map ((Survey.of g).state g) := rfl
  refine ⟨entries, w, hw, hwaiting, ?_, hreused, ?_⟩
  · rw [hstates, hof, List.map_map]
    exact (List.map_id _).symm
  · rw [hedges, hof, List.zipIdx_map, List.flatMap_map]
    simp only [WorkQueue.edgesOf, Prod.map, Survey.state, List.map_filterMap, Option.map_map]
    rfl

/-- The automaton of a grammar is its canonical collection, whatever the options. The work queue that makes it
runs empty, and has then made these states in their order, entered these edges and counted the kernels met again. -/
theorem canonical_of (options : Options) (g : Grammar) : (of options g).Canonical g ∧
    ∃ entries w, (WorkQueue.next g)^[entries] (WorkQueue.start g) = w ∧ w.waiting = [] ∧
      w.states = (of options g).states.map (fun s => ⟨s.kernel, s.parent⟩) ∧ w.reused = (of options g).reused ∧
      w.edges = (of options g).states.zipIdx.flatMap fun s => s.1.transitions.map fun e => (s.2, e) := by
  refine ⟨⟨?root, ?distinct, ?numbered, ?added, ?edge, ?target, ?reached, ?candidates⟩, ?queue⟩
  case root =>
    refine ⟨_, getElem?_states.mpr ⟨_, (Survey.finished g).1.root, rfl⟩, fun i => ?_⟩
    exact Grammar.mem_rootKernel
  case distinct =>
    rw [kernels_states]
    exact (Survey.finished g).1.nodup
  case numbered =>
    intro n s hs
    obtain ⟨seed, hseed, rfl⟩ := getElem?_states.mp hs
    rw [find?_eq]
    exact Survey.find?_of_seed (Survey.finished g).1.nodup hseed
  case added =>
    intro s hs
    obtain ⟨n, hn⟩ := List.getElem?_of_mem hs
    obtain ⟨seed, -, rfl⟩ := getElem?_states.mp hn
    rfl
  case edge => exact fun n s x hs => exists_transition?_iff hs
  case target => exact fun n s x m hs h => exists_state_of_transition? hs h
  case reached =>
    intro n hn
    exact exists_leads? options g n hn
  case candidates =>
    intro s hs
    obtain ⟨n, hn⟩ := List.getElem?_of_mem hs
    exact ⟨nodup_candidates hn, fun q => mem_candidates_iff_next? hs⟩
  case queue => exact exists_queue options g

end Automaton

end ShiftReduce
