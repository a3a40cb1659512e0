import Mathlib.Logic.Function.Iterate
import ShiftReduce.Proofs.Automaton.Survey

/-!
# The survey told as a queue

Kernels wait in a queue, each with the edge that leads to it. The first of them is taken off: a kernel that is
known is met again, a new one becomes a state and lines up the kernels that it leads to, and either way its edge
is entered now. `WorkQueue.empties`: the queue runs empty, and then it has made the states of the survey in the
same order, with the same parents and all edges. Behind a state that the survey looks at wait the kernels that
are left of it and, after these, those of all later states (`Tracks`).
-/

namespace ShiftReduce

namespace Survey

variable {g : Grammar} {v v' : Survey} {kernel : ItemSet} {n : Nat} {e : Nat × ItemSet}

theorem find?_mono (hp : v.seeds.toList <+: v'.seeds.toList) (h : v.find? kernel = some n) :
    v'.find? kernel = some n := by
  obtain ⟨more, hmore⟩ := hp
  rw [find?_eq] at h ⊢
  rw [← hmore, List.findIdx?_append, h]
  rfl

theorem meet_of_known (i : Nat) (h : v.find? e.2 = some n) : meet i v e = { v with reused := v.reused + 1 } := by
  unfold meet
  split
  · rfl
  · next hnone => exact absurd (hnone.symm.trans h) (Option.some_ne_none n).symm

theorem meet_of_new (i : Nat) (h : v.find? e.2 = none) : meet i v e = v.add ⟨e.2, some (i, e.1)⟩ h := by
  unfold meet
  split
  · next hsome => exact absurd (h.symm.trans hsome) (Option.some_ne_none _).symm
  · rfl

theorem toList_seeds_add {seed : Seed} (h : v.find? seed.kernel = none) :
    (v.add seed h).seeds.toList = v.seeds.toList ++ [seed] :=
  Array.toList_push

theorem find?_add {seed : Seed} (h : v.find? seed.kernel = none) :
    (v.add seed h).find? seed.kernel = some v.seeds.toList.length := by
  have hnone := h
  rw [find?_eq] at hnone ⊢
  rw [toList_seeds_add, List.findIdx?_append, hnone]
  simp

theorem exploreFrom_of_none {rounds i : Nat} (h : v.seeds[i]? = none) : exploreFrom g (rounds + 1) i v = v := by
  rw [exploreFrom, h]

theorem exploreFrom_of_some {rounds i : Nat} {seed : Seed} (h : v.seeds[i]? = some seed) : exploreFrom g (rounds + 1) i v =
    exploreFrom g rounds (i + 1) ((g.successorsOf seed.kernel).foldl (meet i) v) := by
  rw [exploreFrom, h]

theorem prefix_exploreFrom (rounds i : Nat) (v : Survey) :
    v.seeds.toList <+: (exploreFrom g rounds i v).seeds.toList := by
  induction rounds generalizing i v with
  | zero => exact List.prefix_refl _
  | succ rounds ih =>
    rw [exploreFrom]
    split
    · exact List.prefix_refl _
    · exact (prefix_meetAll i _ v).trans (ih _ _)

end Survey

/-- Kernels that wait, and what has been made of those that waited before them. -/
structure WorkQueue where
  /-- the kernels of the states so far, each with the edge that first led to it -/
  states : List Seed
  /-- the edges so far: the state, the symbol and the state it leads to -/
  edges : List (Nat × Nat × Nat)
  /-- how often a kernel was known already -/
  reused : Nat
  waiting : List Seed

namespace WorkQueue

variable (g : Grammar)

def start : WorkQueue :=
  ⟨[], [], 0, [⟨g.rootKernel, none⟩]⟩

/-- The kernels that a state leads to. -/
def behind (n : Nat) (es : List (Nat × ItemSet)) : List Seed :=
  es.map fun e => ⟨e.2, some (n, e.1)⟩

/-- The edge that led to a kernel, once the number of its state is known. -/
def edgeTo (seed : Seed) (n : Nat) : List (Nat × Nat × Nat) :=
  seed.parent.toList.map fun e => (e.1, e.2, n)

/-- Takes the first kernel off the queue. -/
def next (w : WorkQueue) : WorkQueue :=
  match w.waiting with
  | [] => w
  | seed :: rest =>
    match w.states.findIdx? (·.kernel = seed.kernel) with
    | some n => { w with edges := w.edges ++ edgeTo seed n, reused := w.reused + 1, waiting := rest }
    | none =>
      { w with
        states := w.states ++ [seed]
        edges := w.edges ++ edgeTo seed w.states.length
        waiting := rest ++ behind w.states.length (g.successorsOf seed.kernel) }

/-- The kernels that some states lead to, the first of them with number `n`. -/
def linedUp (n : Nat) (seeds : List Seed) : List Seed :=
  (seeds.zipIdx n).flatMap fun s => behind s.2 (g.successorsOf s.1.kernel)

/-- The edges to these kernels, by the numbers of the states in `v`. -/
def edgesOf (v : Survey) (n : Nat) (es : List (Nat × ItemSet)) : List (Nat × Nat × Nat) :=
  es.filterMap fun e => (v.find? e.2).map fun m => (n, e.1, m)

/-- The edges of the states of `v` below `n`. -/
def edgesBelow (v : Survey) (n : Nat) : List (Nat × Nat × Nat) :=
  (v.seeds.toList.take n).zipIdx.flatMap fun s => edgesOf v s.2 (g.successorsOf s.1.kernel)

variable {g} {v V : Survey} {w : WorkQueue} {i n : Nat} {es : List (Nat × ItemSet)} {e : Nat × ItemSet}
  {seed : Seed} {seeds : List Seed}

theorem linedUp_cons : linedUp g n (seed :: seeds) =
    behind n (g.successorsOf seed.kernel) ++ linedUp g (n + 1) seeds := by
  simp [linedUp]

theorem linedUp_concat : linedUp g n (seeds ++ [seed]) =
    linedUp g n seeds ++ behind (n + seeds.length) (g.successorsOf seed.kernel) := by
  simp [linedUp, List.zipIdx_append]

theorem edgesOf_cons {m : Nat} (h : V.find? e.2 = some m) : edgesOf V n (e :: es) = (n, e.1, m) :: edgesOf V n es := by
  simp [edgesOf, h]

theorem edgesBelow_succ (h : V.seeds[n]? = some seed) :
    edgesBelow g V (n + 1) = edgesBelow g V n ++ edgesOf V n (g.successorsOf seed.kernel) := by
  rw [← Array.getElem?_toList] at h
  obtain ⟨hlt, rfl⟩ := List.getElem?_eq_some_iff.mp h
  rw [edgesBelow, List.take_succ_eq_append_getElem hlt, List.zipIdx_append, List.flatMap_append,
    List.length_take, Nat.min_eq_left hlt.le]
  simp [edgesBelow]

/-- The queue stands where the survey looks at state `i` and has met all that it leads to but for `es`; the edges
are told by the numbers that the kernels have in the end. -/
structure Tracks (g : Grammar) (V v : Survey) (i : Nat) (es : List (Nat × ItemSet)) (w : WorkQueue) : Prop where
  states : w.states = v.seeds.toList
  reused : w.reused = v.reused
  waiting : w.waiting = behind i es ++ linedUp g (i + 1) (v.seeds.toList.drop (i + 1))
  edges : w.edges ++ edgesOf V i es = edgesBelow g V (i + 1)

namespace Tracks

theorem meet (h : Tracks g V v i (e :: es) w) (hi : i < v.seeds.size)
    (hV : (Survey.meet i v e).seeds.toList <+: V.seeds.toList) :
    Tracks g V (Survey.meet i v e) i es (next g w) := by
  have hwaiting : w.waiting = ⟨e.2, some (i, e.1)⟩ :: (behind i es ++ linedUp g (i + 1) (v.seeds.toList.drop (i + 1))) :=
    h.waiting
  have hedges : ∀ m, V.find? e.2 = some m → (w.edges ++ [(i, e.1, m)]) ++ edgesOf V i es = edgesBelow g V (i + 1) := by
    intro m hm
    rw [← h.edges, edgesOf_cons hm, List.append_assoc, List.singleton_append]
  rw [next, hwaiting]
  cases hfind : v.find? e.2 with
  | some n =>
    rw [Survey.meet_of_known i hfind] at hV ⊢
    -- the queue looks for the kernel in the states, and these are the seeds
    have hidx := hfind
    rw [Survey.find?_eq, ← h.states] at hidx
    simp only [hidx]
    exact ⟨h.states, congrArg (· + 1) h.reused, rfl, hedges n (Survey.find?_mono hV hfind)⟩
  | none =>
    rw [Survey.meet_of_new i hfind] at hV ⊢
    have hidx := hfind
    rw [Survey.find?_eq, ← h.states] at hidx
    simp only [hidx]
    refine ⟨?_, h.reused, ?_, ?_⟩
    · rw [Survey.toList_seeds_add, h.states]
    · have hle : i + 1 ≤ v.seeds.toList.length := hi
      rw [Survey.toList_seeds_add, List.drop_append_of_le_length hle, linedUp_concat, List.length_drop, h.states,
        List.append_assoc, Nat.add_sub_cancel' hle]
    · rw [h.states]
      exact hedges _ (Survey.find?_mono hV (Survey.find?_add hfind))

theorem meetAll (h : Tracks g V v i es w) (hi : i < v.seeds.size)
    (hV : (es.foldl (Survey.meet i) v).seeds.toList <+: V.seeds.toList) :
    Tracks g V (es.foldl (Survey.meet i) v) i [] ((next g)^[es.length] w) := by
  induction es generalizing v w with
  | nil => exact h
  | cons e es ih =>
    have hmeet := h.meet hi ((Survey.prefix_meetAll i es _).trans hV)
    exact ih hmeet (hi.trans_le (Survey.prefix_meetAll i [e] v).length_le) hV

/-- When nothing is left of a state, the kernels behind the next one come first. -/
theorem turn (h : Tracks g V v i [] w) (hseed : v.seeds[i + 1]? = some seed)
    (hV : v.seeds.toList <+: V.seeds.toList) : Tracks g V v (i + 1) (g.successorsOf seed.kernel) w where
  states := h.states
  reused := h.reused
  waiting := by
    rw [← Array.getElem?_toList] at hseed
    obtain ⟨hlt, rfl⟩ := List.getElem?_eq_some_iff.mp hseed
    rw [h.waiting, List.drop_eq_getElem_cons hlt, linedUp_cons]
    rfl
  edges := by
    rw [edgesBelow_succ (Survey.seed_mono hV hseed), ← h.edges]
    simp [edgesOf]

/-- Behind the last state nothing waits. -/
theorem waiting_eq_nil (h : Tracks g V v i [] w) (hi : v.seeds.toList.length ≤ i + 1) : w.waiting = [] := by
  rw [h.waiting, List.drop_eq_nil_of_le hi]
  rfl

/-- The queue goes along with the survey until no state is left or the rounds of the survey are used up. -/
theorem exploreFrom {rounds : Nat} (h : Tracks g V v i [] w)
    (hV : (Survey.exploreFrom g rounds (i + 1) v).seeds.toList <+: V.seeds.toList) :
    ∃ k m, Tracks g V (Survey.exploreFrom g rounds (i + 1) v) m [] ((next g)^[k] w) ∧
      ((Survey.exploreFrom g rounds (i + 1) v).seeds.toList.length ≤ m + 1 ∨ m = i + rounds) := by
  induction rounds generalizing i v w with
  | zero => exact ⟨0, i, h, .inr rfl⟩
  | succ rounds ih =>
    cases hseed : v.seeds[i + 1]? with
    | none =>
      rw [Survey.exploreFrom_of_none hseed] at hV ⊢
      exact ⟨0, i, h, .inl (by simpa using hseed)⟩
    | some seed =>
      rw [Survey.exploreFrom_of_some hseed] at hV ⊢
      have hmet := (Survey.prefix_exploreFrom rounds (i + 1 + 1) _).trans hV
      have hturn := h.turn hseed ((Survey.prefix_meetAll (i + 1) _ v).trans hmet)
      have hall := hturn.meetAll (Array.getElem?_eq_some_iff.mp hseed).1 hmet
      obtain ⟨k, m, htracks, hend⟩ := ih hall hV
      rw [← Function.iterate_add_apply] at htracks
      exact ⟨_, m, htracks, hend.imp_right fun hm => by omega⟩

theorem start (g : Grammar) (hroot : V.seeds[0]? = some ⟨g.rootKernel, none⟩) :
    Tracks g V (Survey.first g.rootKernel) 0 (g.successorsOf g.rootKernel) (next g (WorkQueue.start g)) where
  states := rfl
  reused := rfl
  waiting := (List.append_nil _).symm
  edges := by
    rw [edgesBelow_succ hroot]
    rfl

end Tracks

/-- The queue runs empty, and then it has made the states, edges and count of the survey. -/
theorem empties (g : Grammar) : ∃ entries w, (next g)^[entries] (start g) = w ∧ w.waiting = [] ∧
    w.states = (Survey.of g).seeds.toList ∧ w.reused = (Survey.of g).reused ∧
    w.edges = (Survey.of g).seeds.toList.zipIdx.flatMap fun s => edgesOf (Survey.of g) s.2 (g.successorsOf s.1.kernel) := by
  have hinv := (Survey.finished g).1
  obtain ⟨rounds, hrounds⟩ : ∃ rounds, g.kernelBound = rounds + 1 := Nat.exists_eq_add_one.mpr (Nat.two_pow_pos _)
  obtain ⟨v, hv⟩ : ∃ v, v = (g.successorsOf g.rootKernel).foldl (Survey.meet 0) (Survey.first g.rootKernel) := ⟨_, rfl⟩
  have hof : Survey.exploreFrom g rounds (0 + 1) v = Survey.of g := by
    have hseed : (Survey.first g.rootKernel).seeds[0]? = some ⟨g.rootKernel, none⟩ := rfl
    rw [Survey.of, hrounds, Survey.exploreFrom_of_some hseed, hv]
  have hprefix : v.seeds.toList <+: (Survey.of g).seeds.toList := hof ▸ Survey.prefix_exploreFrom rounds (0 + 1) v
  have hroot := (Tracks.start g hinv.root).meetAll Nat.one_pos (hv ▸ hprefix)
  rw [← hv, ← Function.iterate_succ_apply] at hroot
  have hwhole : (Survey.exploreFrom g rounds (0 + 1) v).seeds.toList <+: (Survey.of g).seeds.toList :=
    hof.symm ▸ List.prefix_refl _
  obtain ⟨k, m, htracks, hend⟩ := hroot.exploreFrom hwhole
  rw [hof, ← Function.iterate_add_apply] at htracks
  have hlast : (Survey.of g).seeds.toList.length ≤ m + 1 := by
    rcases hend with hend | rfl
    · rwa [hof] at hend
    · -- there are as many rounds as kernels of the grammar, so they do not end before the last state
      have hsize := hinv.size_le
      rw [Array.length_toList]
      omega
  refine ⟨_, _, rfl, htracks.waiting_eq_nil hlast, htracks.states, htracks.reused, ?_⟩
  have hedges := htracks.edges
  rwa [edgesBelow, List.take_of_length_le hlast, edgesOf, List.filterMap_nil, List.append_nil] at hedges

end WorkQueue

end ShiftReduce
