import ShiftReduce.Proofs.Automaton.Items
import ShiftReduce.Proofs.Automaton.Queue
import ShiftReduce.Proofs.Item.Renumbering

/-!
# The automaton under other numbers of productions

A grammar whose reached productions have other numbers has the same automaton but for these: `Survey.renumbered_of`
says it of the states as they are met, `Survey.Renumbered.state` of all that is in a state. How many productions there
are that are not reached changes only how many rounds the search may take, and it never takes them all.
-/

namespace ShiftReduce

/-- The state with other numbers of productions. -/
structure State.Renumbered (f : Nat → Nat) (s s' : State) : Prop where
  kernel : s'.kernel = s.kernel.renumbered f
  added : s'.added = s.added.renumbered f
  transitions : s'.transitions = s.transitions
  parent : s'.parent = s.parent
  candidates : s'.candidates.Perm (s.candidates.map f)

def Seed.renumbered (f : Nat → Nat) (seed : Seed) : Seed :=
  { seed with kernel := seed.kernel.renumbered f }

namespace Survey

variable {f : Nat → Nat} {g g' : Grammar} {v v' : Survey} {kernel : ItemSet} {seed : Seed} {i n rounds : Nat}

/-- Rounds one after the other are rounds together, since a round without a state to look at changes nothing. -/
theorem exploreFrom_add (rounds more i : Nat) (v : Survey) :
    exploreFrom g (rounds + more) i v = exploreFrom g more (i + rounds) (exploreFrom g rounds i v) := by
  induction rounds generalizing i v with
  | zero => rw [Nat.zero_add, exploreFrom, Nat.add_zero]
  | succ rounds ih =>
    rw [Nat.add_right_comm]
    cases hseed : v.seeds[i]? with
    | none =>
      rw [exploreFrom_of_none hseed, exploreFrom_of_none hseed]
      have hnone : v.seeds[i + (rounds + 1)]? = none := by
        rw [Array.getElem?_eq_none_iff] at hseed ⊢
        omega
      cases more with
      | zero => rfl
      | succ more => rw [exploreFrom_of_none hnone]
    | some seed =>
      rw [exploreFrom_of_some hseed, exploreFrom_of_some hseed, ih, Nat.add_right_comm, Nat.add_assoc]

/-- More rounds than there are sets of items change nothing. -/
theorem exploreFrom_of_le (h : g.kernelBound ≤ rounds) : exploreFrom g rounds 0 (first g.rootKernel) = of g := by
  obtain ⟨more, rfl⟩ := Nat.exists_eq_add_of_le h
  rw [exploreFrom_add, Nat.zero_add]
  change exploreFrom g more g.kernelBound (of g) = of g
  have hnone : (of g).seeds[g.kernelBound]? = none := Array.getElem?_eq_none_iff.mpr (finished g).1.size_le
  cases more with
  | zero => rfl
  | succ more => exact exploreFrom_of_none hnone

/-- Only items of reached productions are in the states. -/
def Live (g : Grammar) (v : Survey) : Prop :=
  ∀ kernel ∈ v.kernels, ∀ i ∈ kernel, g.Live i

theorem live_first : Live g (first g.rootKernel) := by
  intro kernel hkernel
  obtain rfl : kernel = g.rootKernel := by simpa [kernels, first] using hkernel
  exact Grammar.live_rootKernel

theorem Live.meetAll (h : Live g v) (i : Nat) {es : List (Nat × ItemSet)} (hes : ∀ e ∈ es, ∀ i ∈ e.2, g.Live i) :
    Live g (es.foldl (meet i) v) := by
  induction es generalizing v with
  | nil => exact h
  | cons e es ih =>
    refine ih (fun kernel hkernel => ?_) fun e he => hes e (List.mem_cons_of_mem _ he)
    rcases meet_cases i v e with ⟨-, hs⟩ | ⟨-, hs⟩
    · rw [kernels, hs] at hkernel
      exact h kernel hkernel
    · rw [kernels, hs, Array.toList_push, List.map_append] at hkernel
      rcases List.mem_append.mp hkernel with hkernel | hkernel
      · exact h kernel hkernel
      · obtain rfl := List.mem_singleton.mp hkernel
        exact hes e List.mem_cons_self

theorem Live.of_getElem? (h : Live g v) (hseed : v.seeds[n]? = some seed) : ∀ i ∈ seed.kernel, g.Live i :=
  h _ (List.mem_map_of_mem (Array.mem_toList_iff.mpr (Array.mem_of_getElem? hseed)))

/-- The same states were met in the same order, with other numbers of productions. -/
structure Renumbered (f : Nat → Nat) (v v' : Survey) : Prop where
  seeds : v'.seeds.toList = v.seeds.toList.map (Seed.renumbered f)
  reused : v'.reused = v.reused

namespace Renumbered

theorem first : Renumbered f (first kernel) (first (kernel.renumbered f)) :=
  ⟨rfl, rfl⟩

theorem getElem?_eq (h : Renumbered f v v') (n : Nat) : v'.seeds[n]? = (v.seeds[n]?).map (Seed.renumbered f) := by
  rw [← Array.getElem?_toList, h.seeds, List.getElem?_map, Array.getElem?_toList]

theorem find?_eq (h : Renumbered f v v') (hf : Function.Injective f) : v'.find? (kernel.renumbered f) = v.find? kernel := by
  rw [Survey.find?_eq, Survey.find?_eq, h.seeds, List.findIdx?_map]
  congr 1
  funext seed
  simp only [Function.comp_apply, Seed.renumbered, ItemSet.renumbered_inj hf]

theorem meet (h : Renumbered f v v') (hf : Function.Injective f) (i : Nat) (e : Nat × ItemSet) :
    Renumbered f (meet i v e) (meet i v' (e.1, e.2.renumbered f)) := by
  cases hfind : v.find? e.2 with
  | some n =>
    rw [meet_of_known i hfind, meet_of_known i ((h.find?_eq hf).trans hfind)]
    exact ⟨h.seeds, congrArg (· + 1) h.reused⟩
  | none =>
    rw [meet_of_new i hfind, meet_of_new i ((h.find?_eq hf).trans hfind)]
    refine ⟨?_, h.reused⟩
    rw [toList_seeds_add, toList_seeds_add, h.seeds, List.map_append]
    rfl

theorem meetAll (h : Renumbered f v v') (hf : Function.Injective f) (i : Nat) (es : List (Nat × ItemSet)) :
    Renumbered f (es.foldl (Survey.meet i) v)
      ((es.map fun e => (e.1, e.2.renumbered f)).foldl (Survey.meet i) v') := by
  induction es generalizing v v' with
  | nil => exact h
  | cons e es ih => exact ih (h.meet hf i e)

theorem exploreFrom (h : Renumbered f v v') (hlive : Live g v) (hg : g.Renumbers f g') (rounds i : Nat) :
    Renumbered f (exploreFrom g rounds i v) (exploreFrom g' rounds i v') ∧ Live g (exploreFrom g rounds i v) := by
  induction rounds generalizing i v v' with
  | zero => exact ⟨h, hlive⟩
  | succ rounds ih =>
    have hseed' := h.getElem?_eq i
    cases hseed : v.seeds[i]? with
    | none =>
      rw [hseed] at hseed'
      rw [exploreFrom_of_none hseed, exploreFrom_of_none hseed']
      exact ⟨h, hlive⟩
    | some seed =>
      rw [hseed] at hseed'
      have hkernel := hlive.of_getElem? hseed
      rw [exploreFrom_of_some hseed, exploreFrom_of_some hseed', Seed.renumbered, hg.successorsOf_eq hkernel]
      exact ih (h.meetAll hg.injective i _) (hlive.meetAll i fun _ he => Grammar.live_successorsOf hkernel he) (i + 1)

end Renumbered

theorem renumbered_of (h : g.Renumbers f g') : Renumbered f (of g) (of g') ∧ Live g (of g) := by
  rw [← exploreFrom_of_le (Nat.le_max_left g.kernelBound g'.kernelBound),
    ← exploreFrom_of_le (Nat.le_max_right g.kernelBound g'.kernelBound), h.rootKernel_eq]
  exact Renumbered.first.exploreFrom live_first h _ 0

theorem live_of (g : Grammar) : Live g (of g) :=
  (renumbered_of (.refl g)).2

/-- The edges of a state are what they are under other numbers. -/
theorem Renumbered.transitions_eq (h : Renumbered f v v') (hg : g.Renumbers f g') (hlive : ∀ i ∈ seed.kernel, g.Live i) :
    (v'.state g' (seed.renumbered f)).transitions = (v.state g seed).transitions := by
  change (g'.successorsOf (seed.kernel.renumbered f)).filterMap _ = (g.successorsOf seed.kernel).filterMap _
  rw [hg.successorsOf_eq hlive, List.filterMap_map]
  refine List.filterMap_congr fun e _ => ?_
  rw [Function.comp_apply, h.find?_eq hg.injective]

/-- What closure adds to a state is what it adds under other numbers. -/
theorem added_eq (hg : g.Renumbers f g') (hlive : ∀ i ∈ seed.kernel, g.Live i) :
    (v'.state g' (seed.renumbered f)).added = (v.state g seed).added.renumbered f := by
  change (g'.closure (seed.kernel.renumbered f)).diff (seed.kernel.renumbered f) =
    ((g.closure seed.kernel).diff seed.kernel).renumbered f
  rw [hg.closure_eq hlive, ItemSet.renumbered_diff hg.injective]

theorem Renumbered.state (h : Renumbered f v v') (hg : g.Renumbers f g') (hlive : ∀ i ∈ seed.kernel, g.Live i) :
    State.Renumbered f (v.state g seed) (v'.state g' (seed.renumbered f)) := by
  have hadded : (v'.state g' (seed.renumbered f)).added = (v.state g seed).added.renumbered f := added_eq hg hlive
  refine ⟨rfl, hadded, h.transitions_eq hg hlive, rfl, ?_⟩
  have hitems : (v'.state g' (seed.renumbered f)).items.Perm ((v.state g seed).items.map (Item.renumbered f)) := by
    rw [State.items, hadded, State.items, List.map_append]
    exact (ItemSet.perm_items_renumbered hg.injective _).append (ItemSet.perm_items_renumbered hg.injective _)
  refine (hitems.filterMap fun i => if i.isComplete g' then some i.production else none).trans (.of_eq ?_)
  change _ = ((v.state g seed).items.filterMap _).map f
  rw [List.filterMap_map, List.map_filterMap]
  refine List.filterMap_congr fun i hi => ?_
  rw [Function.comp_apply, hg.isComplete_eq (Grammar.live_closure hlive i (mem_items_state.mp hi))]
  split <;> rfl

end Survey

namespace State

variable {f : Nat → Nat} {g g' : Grammar} {l l' : Lookahead} {s s' : State} {q x : Nat}

/-- The productions have the same lookahead under their other numbers. -/
def SameLookahead (f : Nat → Nat) (l l' : Lookahead) (s : State) : Prop :=
  l'.method = l.method ∧ ∀ q ∈ s.candidates, ∀ t, l'.admits (f q) t = l.admits q t

namespace Renumbered

variable (h : Renumbered f s s') (hg : g.Renumbers f g') (hlive : ∀ i ∈ s.items, g.Live i)
  (hl : s.SameLookahead f l l')

include h in
theorem mem_items {i : Item} : i ∈ s'.items ↔ ∃ j ∈ s.items, j.renumbered f = i := by
  rw [items, items, h.kernel, h.added, List.mem_append]
  change i ∈ s.kernel.renumbered f ∨ i ∈ s.added.renumbered f ↔ _
  simp only [ItemSet.mem_renumbered, List.mem_append, or_and_right, exists_or]
  rfl

include h hl in
theorem countP_eq (t : Nat) : s'.candidates.countP (l'.admits · t) = s.candidates.countP (l.admits · t) := by
  rw [h.candidates.countP_eq, List.countP_map]
  exact List.countP_congr fun q hq => by rw [Function.comp_apply, hl.2 q hq t]

include h hg hl in
theorem overlap_eq : s'.overlap g' l' = s.overlap g l := by
  simp only [overlap, hg.symbols, h.countP_eq hl]

include h hg hlive hl in
theorem colliding_eq : s'.colliding g' l' = s.colliding g l := by
  have hany : ∀ t, s'.candidates.any (l'.admits · t) = s.candidates.any (l.admits · t) := by
    intro t
    rw [Bool.eq_iff_iff, List.any_eq_true, List.any_eq_true, ← List.countP_pos_iff, ← List.countP_pos_iff,
      h.countP_eq hl]
  simp only [colliding, hg.symbols, hg.nextSymbols_eq hlive fun _ => h.mem_items, hany]

include h hg hlive in
theorem mem_shifters : q ∈ s'.shifters g' x ↔ ∃ q₀ ∈ s.shifters g x, f q₀ = q := by
  rw [shifters, shifters, hg.moveOver_eq hlive fun _ => h.mem_items]
  simp only [List.mem_map]
  constructor
  · rintro ⟨i, hi, rfl⟩
    obtain ⟨j, hj, rfl⟩ := ItemSet.mem_renumbered.mp hi
    exact ⟨_, ⟨j, hj, rfl⟩, rfl⟩
  · rintro ⟨_, ⟨j, hj, rfl⟩, rfl⟩
    exact ⟨_, ItemSet.mem_renumbered.mpr ⟨j, hj, rfl⟩, rfl⟩

end Renumbered

end State

end ShiftReduce
