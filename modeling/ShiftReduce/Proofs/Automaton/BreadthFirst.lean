import ShiftReduce.Proofs.Automaton.Canonical

/-!
# The edges back to state 0 are a breadth-first tree

Every state but state 0 was first met over an edge of an earlier state. The queue takes these edges off in the
order of the states they leave (`WorkQueue.Ordered`), so a later state was met from no earlier one, and an edge
leads to no state that was met from behind it. So the way back to state 0 never gets shorter from one state to
the next and no string that leads to a state is shorter than its path (`breadthFirst_of`).
-/

namespace ShiftReduce

/-- The state that a kernel was first met from; for the kernel of state 0 this is state 0. -/
def Seed.origin (seed : Seed) : Nat :=
  seed.parent.elim 0 Prod.fst

namespace WorkQueue

variable {g : Grammar} {w : WorkQueue}

/-- The queue behind its first kernel: edges are taken off in the order of the states they leave, and each of
them has led to a new state or to a known one. -/
structure Ordered (w : WorkQueue) : Prop where
  ascending : (w.states ++ w.waiting).Pairwise (·.origin ≤ ·.origin)
  below : ∀ seed ∈ w.states ++ w.waiting, seed.origin < w.states.length
  waits : ∀ seed ∈ w.waiting, ∃ n x, seed.parent = some (n, x)
  early : ∀ e ∈ w.edges, ∃ seed, w.states[e.2.2]? = some seed ∧ seed.origin ≤ e.1
  count : w.edges.length + 1 = w.states.length + w.reused

theorem mem_behind {seed : Seed} {n : Nat} {es : List (Nat × ItemSet)} (h : seed ∈ behind n es) :
    ∃ x, seed.parent = some (n, x) := by
  obtain ⟨e, -, rfl⟩ := List.mem_map.mp h
  exact ⟨e.1, rfl⟩

theorem origin_behind {seed : Seed} {n : Nat} {es : List (Nat × ItemSet)} (h : seed ∈ behind n es) :
    seed.origin = n := by
  obtain ⟨x, hx⟩ := mem_behind h
  simp [Seed.origin, hx]

theorem ascending_behind (n : Nat) (es : List (Nat × ItemSet)) : (behind n es).Pairwise (·.origin ≤ ·.origin) :=
  List.pairwise_of_forall_mem_list fun a ha b hb => by rw [origin_behind ha, origin_behind hb]

namespace Ordered

theorem start (g : Grammar) : Ordered (next g (start g)) where
  ascending := by
    show (⟨g.rootKernel, none⟩ :: behind 0 (g.successorsOf g.rootKernel)).Pairwise (·.origin ≤ ·.origin)
    exact List.pairwise_cons.mpr ⟨fun _ _ => Nat.zero_le _, ascending_behind 0 _⟩
  below := by
    intro seed hseed
    rcases List.mem_cons.mp hseed with rfl | hseed
    · exact Nat.one_pos
    · exact (origin_behind hseed).trans_lt Nat.one_pos
  waits := by
    intro seed hseed
    obtain ⟨x, hx⟩ := mem_behind (show seed ∈ behind 0 (g.successorsOf g.rootKernel) from hseed)
    exact ⟨0, x, hx⟩
  early := fun e he => absurd he List.not_mem_nil
  count := rfl

section

variable {seed : Seed} {rest : List Seed} {n x : Nat} (h : Ordered w) (hwaiting : w.waiting = seed :: rest)
  (hparent : seed.parent = some (n, x))

include h hwaiting hparent

theorem meet {m : Nat} (hm : w.states.findIdx? (·.kernel = seed.kernel) = some m) :
    Ordered { w with edges := w.edges ++ [(n, x, m)], reused := w.reused + 1, waiting := rest } := by
  have hfewer : (w.states ++ rest).Sublist (w.states ++ w.waiting) := by
    rw [hwaiting]
    exact (List.Sublist.refl _).append (List.sublist_cons_self _ _)
  have hrest : rest ⊆ w.waiting := by simp [hwaiting]
  refine ⟨h.ascending.sublist hfewer, fun s hs => h.below s (hfewer.subset hs), fun s hs => h.waits s (hrest hs),
    fun e he => ?_, ?_⟩
  · rcases List.mem_append.mp he with he | he
    · exact h.early e he
    obtain rfl := List.mem_singleton.mp he
    -- the known state stands before all that wait
    obtain ⟨hlt, -⟩ := List.findIdx?_eq_some_iff_getElem.mp hm
    refine ⟨w.states[m], List.getElem?_eq_getElem hlt, ?_⟩
    have hle := (List.pairwise_append.mp h.ascending).2.2 _ (List.getElem_mem hlt) seed (by simp [hwaiting])
    simpa [Seed.origin, hparent] using hle
  · have := h.count
    simp only [List.length_append, List.length_singleton]
    omega

theorem add (g : Grammar) : Ordered
    { w with
      states := w.states ++ [seed]
      edges := w.edges ++ [(n, x, w.states.length)]
      waiting := rest ++ behind w.states.length (g.successorsOf seed.kernel) } := by
  have hmoved : (w.states ++ [seed]) ++ (rest ++ behind w.states.length (g.successorsOf seed.kernel)) =
      (w.states ++ w.waiting) ++ behind w.states.length (g.successorsOf seed.kernel) := by simp [hwaiting]
  refine ⟨?_, fun s hs => ?_, fun s hs => ?_, fun e he => ?_, ?_⟩
  · -- what is lined up now was met from the newest state
    show ((w.states ++ [seed]) ++ (rest ++ _)).Pairwise _
    rw [hmoved]
    refine List.pairwise_append.mpr ⟨h.ascending, ascending_behind _ _, fun a ha b hb => ?_⟩
    rw [origin_behind hb]
    exact (h.below a ha).le
  · rw [List.length_append, List.length_singleton]
    change s ∈ (w.states ++ [seed]) ++ (rest ++ _) at hs
    rw [hmoved] at hs
    rcases List.mem_append.mp hs with hs | hs
    · exact Nat.lt_succ_of_lt (h.below s hs)
    · exact (origin_behind hs).trans_lt (Nat.lt_succ_self _)
  · rcases List.mem_append.mp hs with hs | hs
    · exact h.waits s (by simp [hwaiting, hs])
    · exact ⟨_, mem_behind hs⟩
  · rcases List.mem_append.mp he with he | he
    · obtain ⟨s, hs, hle⟩ := h.early e he
      exact ⟨s, by rw [List.getElem?_append_left (List.getElem?_eq_some_iff.mp hs).1, hs], hle⟩
    · obtain rfl := List.mem_singleton.mp he
      exact ⟨seed, by simp, by simp [Seed.origin, hparent]⟩
  · have := h.count
    simp only [List.length_append, List.length_singleton]
    omega

end

theorem next (h : Ordered w) : Ordered (next g w) := by
  unfold WorkQueue.next
  split
  · exact h
  next seed rest hwaiting =>
  obtain ⟨n, x, hparent⟩ := h.waits seed (by simp [hwaiting])
  have hedge : ∀ m, edgeTo seed m = [(n, x, m)] := fun m => by simp [edgeTo, hparent]
  split
  · next m hm =>
    rw [hedge]
    exact h.meet hwaiting hparent hm
  · rw [hedge]
    exact h.add hwaiting hparent g

theorem iterate (h : Ordered w) (entries : Nat) : Ordered ((WorkQueue.next g)^[entries] w) := by
  induction entries generalizing w with
  | zero => exact h
  | succ entries ih => exact ih h.next

end Ordered

end WorkQueue

namespace Automaton

/-- The edges back from a state end at a state without one and spell these symbols, nearest first. -/
inductive Back (a : Automaton) : Nat → List Nat → Prop
  | root {n : Nat} {s : State} (hs : a.states[n]? = some s) (h : s.parent = none) : Back a n []
  | link {n m x : Nat} {s : State} {xs : List Nat} (hs : a.states[n]? = some s) (h : s.parent = some (m, x))
      (hback : Back a m xs) : Back a n (x :: xs)

/-- The number of edges. -/
def edgeCount (a : Automaton) : Nat :=
  (a.states.flatMap (·.transitions)).length

/-- The edges back to state 0 are those of a breadth-first tree. -/
structure BreadthFirst (a : Automaton) : Prop where
  /-- the way back from a state ends, and the path of the state has its symbols -/
  ends : ∀ n < a.states.length, a.Back n (a.path n).reverse
  /-- the path of a state leads to it -/
  leads : ∀ n < a.states.length, a.leads? (a.path n) = some n
  /-- no string that leads to a state is shorter than its path -/
  shortest : ∀ n xs, a.leads? xs = some n → (a.path n).length ≤ xs.length
  /-- state 0 alone has no parent; the parent of any other is an earlier state with an edge to it -/
  parent : ∀ n s, a.states[n]? = some s →
    n = 0 ∧ s.parent = none ∨ ∃ m x, s.parent = some (m, x) ∧ m < n ∧ a.transition? m x = some n
  nonempty : 0 < a.states.length
  /-- every state but state 0 has one edge of the tree, and the other edges led to states met before -/
  spanning : a.states.length - 1 ≤ a.edgeCount
  reused : a.reused = a.edgeCount - (a.states.length - 1)

namespace Back

variable {a : Automaton} {n : Nat} {xs : List Nat}

theorem wayBack_eq {steps : Nat} (h : a.Back n xs) (hsteps : xs.length ≤ steps) : a.wayBack steps n = xs := by
  induction h generalizing steps with
  | root hs hp =>
    cases steps with
    | zero => rfl
    | succ steps => simp [wayBack, hs, hp]
  | link hs hp _ ih =>
    cases steps with
    | zero => exact absurd hsteps (Nat.not_succ_le_zero _)
    | succ steps => simp [wayBack, hs, hp, ih (Nat.le_of_succ_le_succ hsteps)]

theorem path_eq (h : a.Back n xs) (hlen : xs.length ≤ a.states.length) : a.path n = xs.reverse := by
  rw [path, h.wayBack_eq hlen]

end Back

variable {g : Grammar} {options : Options} {n m x : Nat} {s t : State} {xs : List Nat}

theorem exists_back (hn : n < (of options g).states.length) :
    ∃ xs, (of options g).Back n xs ∧ xs.length ≤ n ∧ (of options g).leads? xs.reverse = some n := by
  induction n using Nat.strongRecOn with
  | ind n ih =>
    have hs := List.getElem?_eq_getElem hn
    rcases parent_cases hs with ⟨rfl, hp⟩ | ⟨m, x, hp, hlt, hedge⟩
    · exact ⟨[], .root hs hp, Nat.le_refl _, rfl⟩
    · obtain ⟨xs, hback, hlen, hleads⟩ := ih m hlt (hlt.trans hn)
      refine ⟨x :: xs, .link hs hp hback, hlen.trans_lt hlt, ?_⟩
      rw [List.reverse_cons]
      exact leads?_concat_eq_some.mpr ⟨m, hleads, hedge⟩

/-- The steps that `path` may take are enough. -/
theorem back_path (hn : n < (of options g).states.length) : (of options g).Back n ((of options g).path n).reverse ∧
    ((of options g).path n).length ≤ n ∧ (of options g).leads? ((of options g).path n) = some n := by
  obtain ⟨xs, hback, hlen, hleads⟩ := exists_back hn
  rw [hback.path_eq (hlen.trans hn.le), List.reverse_reverse, List.length_reverse]
  exact ⟨hback, hlen, hleads⟩

theorem path_zero (options : Options) (g : Grammar) : (of options g).path 0 = [] := by
  obtain ⟨s, hs, hp⟩ : ∃ s, (of options g).states[0]? = some s ∧ s.parent = none :=
    ⟨_, getElem?_states.mpr ⟨_, (Survey.finished g).1.root, rfl⟩, rfl⟩
  exact (Back.root hs hp).path_eq (Nat.zero_le _)

theorem path_of_parent (hs : (of options g).states[n]? = some s) (hp : s.parent = some (m, x)) (hlt : m < n) :
    (of options g).path n = (of options g).path m ++ [x] := by
  have hm : m < (of options g).states.length := hlt.trans (List.getElem?_eq_some_iff.mp hs).1
  obtain ⟨hback, hlen, -⟩ := back_path hm
  have hlink := (Back.link hs hp hback).path_eq (by simp; omega)
  rw [hlink, List.reverse_cons, List.reverse_reverse]

/-- The queue that has made the automaton. -/
theorem exists_ordered (options : Options) (g : Grammar) : ∃ w : WorkQueue, w.Ordered ∧
    w.states = (of options g).states.map (fun s => ⟨s.kernel, s.parent⟩) ∧ w.reused = (of options g).reused ∧
      w.edges = (of options g).states.zipIdx.flatMap fun s => s.1.transitions.map fun e => (s.2, e) := by
  obtain ⟨entries, w, hw, hwaiting, hrest⟩ := exists_queue options g
  cases entries with
  | zero =>
    obtain rfl := hw
    cases hwaiting
  | succ entries => exact ⟨w, hw ▸ (WorkQueue.Ordered.start g).iterate entries, hrest⟩

/-- A later state was met from no earlier one. -/
theorem parent_mono {i j x y : Nat} (hnm : n ≤ m) (hs : (of options g).states[n]? = some s)
    (ht : (of options g).states[m]? = some t) (hi : s.parent = some (i, x)) (hj : t.parent = some (j, y)) : i ≤ j := by
  obtain ⟨w, hordered, hstates, -, -⟩ := exists_ordered options g
  rcases Nat.eq_or_lt_of_le hnm with rfl | hlt
  · obtain rfl := Option.some.inj (hs.symm.trans ht)
    obtain ⟨rfl, -⟩ := Prod.mk.inj (Option.some.inj (hi.symm.trans hj))
    exact Nat.le_refl _
  · have hascending := (List.pairwise_append.mp hordered.ascending).1
    rw [hstates, List.pairwise_map] at hascending
    obtain ⟨hn, rfl⟩ := List.getElem?_eq_some_iff.mp hs
    obtain ⟨hm, rfl⟩ := List.getElem?_eq_some_iff.mp ht
    simpa [Seed.origin, hi, hj] using List.pairwise_iff_getElem.mp hascending n m hn hm hlt

/-- An edge leads to no state that was met from behind it. -/
theorem parent_le_of_edge {j y : Nat} (h : (of options g).transition? n x = some m)
    (ht : (of options g).states[m]? = some t) (hj : t.parent = some (j, y)) : j ≤ n := by
  obtain ⟨w, hordered, hstates, -, hedges⟩ := exists_ordered options g
  obtain ⟨s, hs, hx⟩ := Option.bind_eq_some_iff.mp h
  have hmem : (n, x, m) ∈ w.edges := by
    obtain ⟨before, after, heq, -⟩ := List.lookup_eq_some_iff.mp hx
    rw [hedges]
    refine List.mem_flatMap.mpr ⟨(s, n), List.mem_zipIdx_iff_getElem?.mpr hs, List.mem_map.mpr ⟨(x, m), ?_, rfl⟩⟩
    rw [heq]
    simp
  obtain ⟨seed, hseed, hle⟩ := hordered.early _ hmem
  rw [hstates, List.getElem?_map, ht] at hseed
  obtain rfl := Option.some.inj hseed
  simpa [Seed.origin, hj] using hle

theorem length_path_mono (hnm : n ≤ m) (hm : m < (of options g).states.length) :
    ((of options g).path n).length ≤ ((of options g).path m).length := by
  induction m using Nat.strongRecOn generalizing n with
  | ind m ih =>
    have hs := List.getElem?_eq_getElem (hnm.trans_lt hm)
    have ht := List.getElem?_eq_getElem hm
    rcases parent_cases hs with ⟨rfl, -⟩ | ⟨i, x, hi, hin, -⟩
    · rw [path_zero]
      exact Nat.zero_le _
    rcases parent_cases ht with ⟨rfl, -⟩ | ⟨j, y, hj, hjm, -⟩
    · exact absurd (hin.trans_le hnm) (Nat.not_lt_zero i)
    have hle := ih j hjm (parent_mono hnm hs ht hi hj) (hjm.trans hm)
    rw [path_of_parent hs hi hin, path_of_parent ht hj hjm]
    simpa using hle

theorem length_path_le_of_edge (h : (of options g).transition? n x = some m) :
    ((of options g).path m).length ≤ ((of options g).path n).length + 1 := by
  have ht := List.getElem?_eq_getElem (lt_length_of_transition? h)
  rcases parent_cases ht with ⟨rfl, -⟩ | ⟨j, y, hj, hjm, -⟩
  · rw [path_zero]
    exact Nat.zero_le _
  · obtain ⟨s, hs, -⟩ := Option.bind_eq_some_iff.mp h
    have hle := length_path_mono (parent_le_of_edge h ht hj) (List.getElem?_eq_some_iff.mp hs).1
    rw [path_of_parent ht hj hjm]
    simpa using hle

theorem length_path_le (h : (of options g).leads? xs = some n) : ((of options g).path n).length ≤ xs.length := by
  induction xs using List.reverseRecOn generalizing n with
  | nil =>
    obtain rfl := Option.some.inj h
    rw [path_zero]
  | append_singleton xs x ih =>
    obtain ⟨m, hm, hedge⟩ := leads?_concat_eq_some.mp h
    calc ((of options g).path n).length ≤ ((of options g).path m).length + 1 := length_path_le_of_edge hedge
      _ ≤ xs.length + 1 := Nat.succ_le_succ (ih hm)
      _ = (xs ++ [x]).length := by simp

theorem edgeCount_eq (options : Options) (g : Grammar) :
    (of options g).edgeCount + 1 = (of options g).states.length + (of options g).reused := by
  obtain ⟨w, hordered, hstates, hreused, hedges⟩ := exists_ordered options g
  have hcount := hordered.count
  rw [hstates, hreused, hedges, List.length_map, List.length_flatMap] at hcount
  have hlengths : (of options g).states.zipIdx.map (fun s => (s.1.transitions.map fun e => (s.2, e)).length) =
      (of options g).states.map (·.transitions.length) := by
    simp only [List.length_map]
    rw [← List.zipIdx_map_fst 0 (of options g).states, List.map_map]
    simp [Function.comp_def]
  rw [edgeCount, List.length_flatMap, ← hlengths]
  exact hcount

/-- The edges back to state 0 are a breadth-first spanning tree: the way back from every state ends, its symbols
lead from state 0 to the state and no fewer do, a parent is an earlier state, and each edge out of the tree is
counted as reused. -/
theorem breadthFirst_of (options : Options) (g : Grammar) : (of options g).BreadthFirst := by
  have hcount := edgeCount_eq options g
  have hpos : 0 < (of options g).states.length := by
    rw [length_states]
    exact (Array.getElem?_eq_some_iff.mp (Survey.finished g).1.root).1
  exact
    { ends := fun n hn => (back_path hn).1
      leads := fun n hn => (back_path hn).2.2
      shortest := fun n xs h => length_path_le h
      parent := fun n s hs => parent_cases hs
      nonempty := hpos
      spanning := by omega
      reused := by omega }

end Automaton

end ShiftReduce
