import Mathlib.Data.Finset.Sort
import ShiftReduce.Proofs.Automaton.Canonical
import ShiftReduce.Proofs.Automaton.Conflict

/-!
# Conflicts are reported exactly

Conflicts are found in one pass over what is known when a state is made: the lookahead sets of its complete productions
one after the other, and the kernels that its symbols lead to (`State.detect`). The pass finds what the finished state
says (`State.detect_eq`): `Automaton.conflicts_exact` tells from the items of the states alone which conflicts are
reported, and what stands in them.
-/

namespace ShiftReduce

/-- The list with another element at its end, unless it has this element already. -/
def pushNew (as : List Nat) (a : Nat) : List Nat :=
  if a ∈ as then as else as ++ [a]

theorem foldl_pushNew {as bs : List Nat} : bs.foldl pushNew as = as ++ distinctFrom as bs := by
  induction bs generalizing as with
  | nil => simp [distinctFrom]
  | cons b bs ih =>
    rw [List.foldl_cons, ih, pushNew, distinctFrom]
    split
    · rfl
    · rw [List.append_assoc, List.singleton_append]
      congr 2
      exact distinctFrom_congr fun a => by simp [or_comm]

/-- Pushing one after the other is reading the first occurrences from the left. -/
theorem foldl_pushNew_eq_distinct {as bs : List Nat} (has : as.Nodup) : bs.foldl pushNew as = distinct (as ++ bs) := by
  rw [foldl_pushNew, distinct, distinctFrom_append has fun _ _ => List.not_mem_nil, List.append_nil]

/-- The terminals that a production read so far reduces on, and those that more than one of them does. -/
structure Claims where
  seen : Finset Nat
  overlap : Finset Nat

def Claims.claim (c : Claims) (set : Finset Nat) : Claims :=
  ⟨c.seen ∪ set, c.overlap ∪ c.seen ∩ set⟩

namespace Lookahead

variable (l : Lookahead)

def claims (qs : List Nat) : Claims :=
  qs.foldl (fun c q => c.claim (l.set q).toFinset) ⟨∅, ∅⟩

/-- The running sets know how many of the productions admit a terminal, as far as two. -/
theorem mem_claims (qs : List Nat) (t : Nat) :
    (t ∈ (l.claims qs).seen ↔ 1 ≤ qs.countP (l.admits · t)) ∧
      (t ∈ (l.claims qs).overlap ↔ 2 ≤ qs.countP (l.admits · t)) := by
  induction qs using List.reverseRecOn with
  | nil => simp [claims]
  | append_singleton qs q ih =>
    obtain ⟨hseen, hoverlap⟩ := ih
    have hq : t ∈ (l.set q).toFinset ↔ l.admits q t := by simp [admits]
    have hclaims : l.claims (qs ++ [q]) = (l.claims qs).claim (l.set q).toFinset := List.foldl_concat ..
    rw [hclaims, List.countP_append, List.countP_singleton]
    simp only [Claims.claim, Finset.mem_union, Finset.mem_inter, hseen, hoverlap, hq]
    cases l.admits q t
    · simp
    · simp only [and_true, or_true, if_true, true_iff]
      omega

end Lookahead

namespace State

variable (g : Grammar) (l : Lookahead) (s : State)

/-- The conflicts as they are found when the state is made. -/
def detect (id : Nat) : List Conflict :=
  let claims := l.claims s.candidates
  let colliding := (g.successors s.items).filter fun edge => g.symbols.isTerminal edge.1 && edge.1 ∈ claims.seen
  let push := fun qs (edge : Nat × ItemSet) => (edge.2.items.map (·.production)).foldl pushNew qs
  if s.candidates.isEmpty then []
  else
    (if 1 < s.candidates.length then
      [⟨id, .reduceReduce, s.candidates, if l.method = .lr0 then [] else claims.overlap.sort (· ≤ ·)⟩]
    else []) ++
    (if colliding.isEmpty then []
    else [⟨id, .shiftReduce, colliding.foldl push s.candidates, colliding.map (·.1)⟩])

/-- A production has a complete item in the state. -/
def Completes (q : Nat) : Prop :=
  ∃ i ∈ s.items, i.production = q ∧ i.next? g = none

/-- A production has an item in the state that waits for the symbol. -/
def Expects (x q : Nat) : Prop :=
  ∃ i ∈ s.items, i.production = q ∧ i.next? g = some x

/-- The terminal is waited for in the state, and a production that is complete there may reduce on it. -/
def Collides (t : Nat) : Prop :=
  g.symbols.isTerminal t ∧ (∃ q, s.Expects g t q) ∧ ∃ q, s.Completes g q ∧ l.admits q t

end State

/-- A list without repeats has two elements where there are two that differ. -/
theorem one_lt_length_iff {as : List Nat} (h : as.Nodup) : 1 < as.length ↔ ∃ a ∈ as, ∃ b ∈ as, a ≠ b := by
  rw [← List.toFinset_card_of_nodup h, Finset.one_lt_card]
  simp only [List.mem_toFinset]

theorem one_lt_countP_iff {as : List Nat} {P : Nat → Bool} (h : as.Nodup) :
    1 < as.countP P ↔ ∃ a ∈ as, ∃ b ∈ as, a ≠ b ∧ P a ∧ P b := by
  rw [List.countP_eq_length_filter, one_lt_length_iff (h.filter P)]
  simp only [List.mem_filter]
  constructor
  · rintro ⟨a, ⟨ha, hPa⟩, b, ⟨hb, hPb⟩, hne⟩
    exact ⟨a, ha, b, hb, hne, hPa, hPb⟩
  · rintro ⟨a, ha, b, hb, hne, hPa, hPb⟩
    exact ⟨a, ⟨ha, hPa⟩, b, ⟨hb, hPb⟩, hne⟩

/-- What a record of shifts against reduces says of its state. -/
structure Conflict.OfShiftReduce (g : Grammar) (l : Lookahead) (s : State) (c : Conflict) : Prop where
  ascending : c.symbols.Pairwise (· < ·)
  mem_symbols : ∀ t, t ∈ c.symbols ↔ s.Collides g l t
  nodup : c.productions.Nodup
  mem_productions : ∀ q, q ∈ c.productions ↔ s.Completes g q ∨ ∃ t, s.Collides g l t ∧ s.Expects g t q

/-- What a record of reduces against reduces says of its state. -/
structure Conflict.OfReduceReduce (g : Grammar) (method : Method) (s : State) (c : Conflict) : Prop where
  nodup : c.productions.Nodup
  mem_productions : ∀ q, q ∈ c.productions ↔ s.Completes g q
  ascending : c.symbols.Pairwise (· < ·)
  mem_symbols : ∀ t, t ∈ c.symbols ↔ method = .slr ∧
    ∃ q q', q ≠ q' ∧ s.Completes g q ∧ s.Completes g q' ∧ g.FollowsHead q t ∧ g.FollowsHead q' t

namespace State

variable {g : Grammar} {l : Lookahead} {s : State} {n q x t : Nat} {c : Conflict}

theorem mem_nextSymbols : x ∈ g.nextSymbols (g.waiting s.items) ↔ ∃ q, s.Expects g x q := by
  rw [Grammar.mem_nextSymbols]
  constructor
  · rintro ⟨i, hi, hnext⟩
    exact ⟨_, i, hi, rfl, hnext⟩
  · rintro ⟨q, i, hi, -, hnext⟩
    exact ⟨i, hi, hnext⟩

theorem mem_shifters : q ∈ s.shifters g x ↔ s.Expects g x q := by
  rw [shifters, List.mem_map]
  constructor
  · rintro ⟨j, hj, rfl⟩
    obtain ⟨i, hi, hnext, rfl⟩ := Grammar.mem_moveOver.mp hj
    exact ⟨i, hi, rfl, hnext⟩
  · rintro ⟨i, hi, rfl, hnext⟩
    exact ⟨i.shifted, Grammar.mem_moveOver.mpr ⟨i, hi, hnext, rfl⟩, rfl⟩

theorem ascending_colliding : (s.colliding g l).Pairwise (· < ·) :=
  (List.pairwise_lt_range.filter _).filter _

theorem ascending_overlap : (s.overlap g l).Pairwise (· < ·) :=
  List.pairwise_lt_range.filter _

section

variable (hl : ∀ q ∈ s.candidates, ∀ t, l.admits q t → g.symbols.isTerminal t) (hnodup : s.candidates.Nodup)

include hl in
/-- The running overlap is all that two of the candidates reduce on. -/
theorem sort_claims : (l.claims s.candidates).overlap.sort (· ≤ ·) = s.overlap g l := by
  have heq : (l.claims s.candidates).overlap = (s.overlap g l).toFinset := by
    ext t
    rw [(l.mem_claims s.candidates t).2, List.mem_toFinset, overlap, List.mem_filter, g.symbols.mem_terminalIds,
      decide_eq_true_eq]
    refine (and_iff_right_of_imp fun h => ?_).symm
    obtain ⟨q, hq, ht⟩ := List.countP_pos_iff.mp (Nat.zero_lt_of_lt h)
    exact hl q hq t ht
  rw [heq, List.toFinset_sort _ (ascending_overlap.imp fun h => h.ne)]
  exact ascending_overlap.imp fun h => h.le

theorem filter_successors : ((g.successors s.items).filter fun edge =>
    g.symbols.isTerminal edge.1 && edge.1 ∈ (l.claims s.candidates).seen) =
    (s.colliding g l).map fun x => (x, Grammar.moveOver (g.waiting s.items) x) := by
  rw [Grammar.successors, List.filter_map, colliding]
  congr 1
  refine List.filter_congr fun x _ => ?_
  have hseen := (l.mem_claims s.candidates x).1
  rw [Nat.one_le_iff_ne_zero, Nat.ne_zero_iff_zero_lt, List.countP_pos_iff, ← List.any_eq_true] at hseen
  simp only [Function.comp_apply, hseen, Bool.decide_eq_true]

include hl hnodup in
/-- What is found when the state is made is what the finished state says. -/
theorem detect_eq : s.detect g l n = s.conflicts g l n := by
  have hpush : ((s.colliding g l).map fun x => (x, Grammar.moveOver (g.waiting s.items) x)).foldl
      (fun qs edge => (edge.2.items.map (·.production)).foldl pushNew qs) s.candidates =
      distinct (s.candidates ++ (s.colliding g l).flatMap (s.shifters g)) := by
    rw [← foldl_pushNew_eq_distinct hnodup, List.foldl_flatMap, List.foldl_map]
    rfl
  simp only [detect, filter_successors, sort_claims hl, hpush, List.map_map, Function.comp_def, List.map_id',
    conflicts, reduceReduce?, shiftReduce?, List.isEmpty_map]
  by_cases hnone : s.candidates = []
  · have hcolliding : s.colliding g l = [] := by simp [colliding, hnone]
    simp [hnone, hcolliding]
  rw [if_neg (by simpa using hnone)]
  congr 1
  · rcases Nat.lt_or_ge 1 s.candidates.length with hlt | hle
    · rw [if_pos hlt, if_neg (Nat.not_le.mpr hlt)]
      cases l.method <;> rfl
    · rw [if_neg (Nat.not_lt.mpr hle), if_pos hle]
      rfl
  · split <;> rfl

end

section

variable (hnodup : s.candidates.Nodup) (hc : ∀ q, q ∈ s.candidates ↔ s.Completes g q)

include hc in
theorem mem_colliding : t ∈ s.colliding g l ↔ s.Collides g l t := by
  rw [colliding, List.mem_filter, mem_nextSymbols, Bool.and_eq_true, List.any_eq_true, Collides]
  simp only [hc]
  exact and_left_comm

include hc in
theorem shiftReduce?_isSome : (s.shiftReduce? g l n).isSome ↔ ∃ t, s.Collides g l t := by
  simp only [← mem_colliding hc, shiftReduce?]
  cases s.colliding g l <;> simp

include hc in
theorem ofShiftReduce (h : s.shiftReduce? g l n = some c) : c.OfShiftReduce g l s := by
  obtain ⟨-, rfl⟩ : _ ∧ _ = c := by simpa [shiftReduce?] using h
  refine ⟨ascending_colliding, fun t => mem_colliding hc, nodup_distinct, fun q => ?_⟩
  simp only [mem_distinct, List.mem_append, List.mem_flatMap, hc, mem_colliding hc, mem_shifters]

include hnodup hc in
theorem reduceReduce?_isSome :
    (s.reduceReduce? g l n).isSome ↔ ∃ q q', q ≠ q' ∧ s.Completes g q ∧ s.Completes g q' := by
  have hsome : (s.reduceReduce? g l n).isSome ↔ 1 < s.candidates.length := by
    rw [reduceReduce?]
    by_cases h : s.candidates.length ≤ 1 <;> simp [h, Nat.lt_of_not_le]
  rw [hsome, one_lt_length_iff hnodup]
  simp only [hc]
  constructor
  · rintro ⟨q, hq, q', hq', hne⟩
    exact ⟨q, q', hne, hq, hq'⟩
  · rintro ⟨q, q', hne, hq, hq'⟩
    exact ⟨q, hq, q', hq', hne⟩

include hnodup hc in
theorem mem_overlap_slr : t ∈ s.overlap g (.of .slr g) ↔
    ∃ q q', q ≠ q' ∧ s.Completes g q ∧ s.Completes g q' ∧ g.FollowsHead q t ∧ g.FollowsHead q' t := by
  rw [overlap, List.mem_filter, g.symbols.mem_terminalIds, decide_eq_true_eq]
  change _ ∧ 1 < _ ↔ _
  rw [one_lt_countP_iff hnodup]
  simp only [hc, Lookahead.admits_slr]
  constructor
  · rintro ⟨-, q, hq, q', hq', hne, ht, ht'⟩
    exact ⟨q, q', hne, hq, hq', ht, ht'⟩
  · rintro ⟨q, q', hne, hq, hq', ht, ht'⟩
    exact ⟨ht.isTerminal, q, hq, q', hq', hne, ht, ht'⟩

include hnodup hc in
theorem ofReduceReduce {method : Method} (h : s.reduceReduce? g (.of method g) n = some c) :
    c.OfReduceReduce g method s := by
  obtain ⟨-, rfl⟩ : _ ∧ _ = c := by simpa [reduceReduce?] using h
  cases method with
  | lr0 => exact ⟨hnodup, hc, .nil, by simp [Lookahead.of]⟩
  | slr => exact ⟨hnodup, hc, ascending_overlap, fun t => (mem_overlap_slr hnodup hc).trans (by simp)⟩

end

theorem mem_conflicts :
    c ∈ s.conflicts g l n ↔ s.reduceReduce? g l n = some c ∨ s.shiftReduce? g l n = some c := by
  rw [conflicts, List.mem_append, Option.mem_toList, Option.mem_toList]

theorem reduceReduce?_eq_some (h : s.reduceReduce? g l n = some c) : c.state = n ∧ c.kind = .reduceReduce := by
  obtain ⟨-, rfl⟩ : _ ∧ _ = c := by simpa [reduceReduce?] using h
  exact ⟨rfl, rfl⟩

theorem shiftReduce?_eq_some (h : s.shiftReduce? g l n = some c) : c.state = n ∧ c.kind = .shiftReduce := by
  obtain ⟨-, rfl⟩ : _ ∧ _ = c := by simpa [shiftReduce?] using h
  exact ⟨rfl, rfl⟩

theorem state_of_mem_conflicts (h : c ∈ s.conflicts g l n) : c.state = n := by
  rcases mem_conflicts.mp h with h | h
  · exact (reduceReduce?_eq_some h).1
  · exact (shiftReduce?_eq_some h).1

theorem reduceReduce?_eq_some_iff :
    s.reduceReduce? g l n = some c ↔ c ∈ s.conflicts g l n ∧ c.kind = .reduceReduce := by
  rw [mem_conflicts]
  constructor
  · exact fun h => ⟨.inl h, (reduceReduce?_eq_some h).2⟩
  · rintro ⟨h | h, hkind⟩
    · exact h
    · rw [(shiftReduce?_eq_some h).2] at hkind
      cases hkind

theorem shiftReduce?_eq_some_iff :
    s.shiftReduce? g l n = some c ↔ c ∈ s.conflicts g l n ∧ c.kind = .shiftReduce := by
  rw [mem_conflicts]
  constructor
  · exact fun h => ⟨.inr h, (shiftReduce?_eq_some h).2⟩
  · rintro ⟨h | h, hkind⟩
    · rw [(reduceReduce?_eq_some h).2] at hkind
      cases hkind
    · exact h

theorem nodup_kinds : ((s.conflicts g l n).map (·.kind)).Nodup := by
  rw [conflicts, reduceReduce?, shiftReduce?]
  by_cases h : s.candidates.length ≤ 1 <;> by_cases h' : s.colliding g l = [] <;> simp [h, h']

end State

namespace Automaton

variable {g : Grammar} {options : Options} {s : State} {n : Nat} {c : Conflict}

theorem mem_conflicts : c ∈ (of options g).conflicts ↔
    ∃ n, ∃ s : State, (of options g).states[n]? = some s ∧ c ∈ s.conflicts g (.of options.method g) n := by
  change c ∈ (of options g).states.zipIdx.flatMap _ ↔ _
  rw [List.mem_flatMap]
  constructor
  · rintro ⟨⟨s, n⟩, hs, hc⟩
    exact ⟨n, s, List.mem_zipIdx_iff_getElem?.mp hs, hc⟩
  · rintro ⟨n, s, hs, hc⟩
    exact ⟨(s, n), List.mem_zipIdx_iff_getElem?.mpr hs, hc⟩

theorem mem_conflicts_of_state (hs : (of options g).states[n]? = some s) :
    c ∈ (of options g).conflicts ∧ c.state = n ↔ c ∈ s.conflicts g (.of options.method g) n := by
  rw [mem_conflicts]
  constructor
  · rintro ⟨⟨m, t, ht, hc⟩, rfl⟩
    obtain rfl := State.state_of_mem_conflicts hc
    obtain rfl := Option.some.inj (ht.symm.trans hs)
    exact hc
  · intro hc
    exact ⟨⟨n, s, hs, hc⟩, State.state_of_mem_conflicts hc⟩

/-- A state has at most one record of each kind. -/
theorem nodup_conflicts : ((of options g).conflicts.map fun c => (c.state, c.kind)).Nodup := by
  change (((of options g).states.zipIdx.flatMap _).map _).Nodup
  rw [List.map_flatMap, List.nodup_flatMap]
  constructor
  · rintro ⟨s, n⟩ -
    refine List.Nodup.of_map Prod.snd ?_
    rw [List.map_map]
    exact State.nodup_kinds
  · have hnumbers : ((of options g).states.zipIdx.map Prod.snd).Nodup := by
      rw [List.zipIdx_map_snd]
      exact List.nodup_range'
    refine (List.pairwise_map.mp hnumbers).imp fun {s t} hne => ?_
    refine List.disjoint_left.mpr fun e he he' => ?_
    obtain ⟨c, hc, rfl⟩ := List.mem_map.mp he
    obtain ⟨c', hc', heq⟩ := List.mem_map.mp he'
    have hstate := congrArg Prod.fst heq
    rw [State.state_of_mem_conflicts hc, State.state_of_mem_conflicts hc'] at hstate
    exact hne hstate.symm

theorem exists_state (hc : c ∈ (of options g).conflicts) : ∃ s, (of options g).states[c.state]? = some s := by
  obtain ⟨n, s, hs, hc⟩ := mem_conflicts.mp hc
  exact ⟨s, State.state_of_mem_conflicts hc ▸ hs⟩

section

variable (hs : (of options g).states[n]? = some s)

include hs

theorem mem_candidates_iff_completes (q : Nat) : q ∈ s.candidates ↔ s.Completes g q :=
  mem_candidates_iff_next? (List.mem_of_getElem? hs)

theorem exists_reduceReduce_iff : (∃ c ∈ (of options g).conflicts, c.state = n ∧ c.kind = .reduceReduce) ↔
    ∃ q q', q ≠ q' ∧ s.Completes g q ∧ s.Completes g q' := by
  rw [← State.reduceReduce?_isSome (nodup_candidates hs) (mem_candidates_iff_completes hs)
    (l := .of options.method g) (n := n), Option.isSome_iff_exists]
  refine exists_congr fun c => ?_
  rw [State.reduceReduce?_eq_some_iff, ← mem_conflicts_of_state hs, and_assoc]

theorem exists_shiftReduce_iff : (∃ c ∈ (of options g).conflicts, c.state = n ∧ c.kind = .shiftReduce) ↔
    ∃ t, s.Collides g (.of options.method g) t := by
  rw [← State.shiftReduce?_isSome (mem_candidates_iff_completes hs) (n := n), Option.isSome_iff_exists]
  refine exists_congr fun c => ?_
  rw [State.shiftReduce?_eq_some_iff, ← mem_conflicts_of_state hs, and_assoc]

theorem ofReduceReduce (hc : c ∈ (of options g).conflicts) (hstate : c.state = n) (hkind : c.kind = .reduceReduce) :
    c.OfReduceReduce g options.method s := by
  have hmem := (mem_conflicts_of_state hs).mp ⟨hc, hstate⟩
  exact State.ofReduceReduce (nodup_candidates hs) (mem_candidates_iff_completes hs)
    (State.reduceReduce?_eq_some_iff.mpr ⟨hmem, hkind⟩)

theorem ofShiftReduce (hc : c ∈ (of options g).conflicts) (hstate : c.state = n) (hkind : c.kind = .shiftReduce) :
    c.OfShiftReduce g (.of options.method g) s := by
  have hmem := (mem_conflicts_of_state hs).mp ⟨hc, hstate⟩
  exact State.ofShiftReduce (mem_candidates_iff_completes hs) (State.shiftReduce?_eq_some_iff.mpr ⟨hmem, hkind⟩)

theorem detect_of_state : s.detect g (.of options.method g) n = s.conflicts g (.of options.method g) n :=
  State.detect_eq (fun _ _ _ ht => Lookahead.isTerminal_of_admits ht) (nodup_candidates hs)

end

/-- What is found while the states are made is reported, and this is at most one record of each kind for a state. There
is one of reduces where two productions are complete, and one of shifts where a terminal collides; their productions
and terminals are those of which this is true, no less and no more. -/
theorem conflicts_exact (options : Options) (g : Grammar) :
    (of options g).conflicts =
      (of options g).states.zipIdx.flatMap (fun s => s.1.detect g (of options g).lookahead s.2) ∧
    ((of options g).conflicts.map fun c => (c.state, c.kind)).Nodup ∧
    (∀ c ∈ (of options g).conflicts, c.state < (of options g).states.length) ∧
    ∀ n, ∀ s : State, (of options g).states[n]? = some s →
      ((∃ c ∈ (of options g).conflicts, c.state = n ∧ c.kind = .reduceReduce) ↔
        ∃ q q', q ≠ q' ∧ s.Completes g q ∧ s.Completes g q') ∧
      ((∃ c ∈ (of options g).conflicts, c.state = n ∧ c.kind = .shiftReduce) ↔
        ∃ t, s.Collides g (of options g).lookahead t) ∧
      ∀ c ∈ (of options g).conflicts, c.state = n →
        (c.kind = .shiftReduce → c.OfShiftReduce g (of options g).lookahead s) ∧
        (c.kind = .reduceReduce → c.OfReduceReduce g options.method s) := by
  refine ⟨?detected, nodup_conflicts, ?inRange, fun n s hs => ⟨?reduceReduce, ?shiftReduce, ?contents⟩⟩
  case detected =>
    change (of options g).states.zipIdx.flatMap _ = _
    exact List.flatMap_congr fun s hs => (detect_of_state (List.mem_zipIdx_iff_getElem?.mp hs)).symm
  case inRange =>
    intro c hc
    obtain ⟨s, hs⟩ := exists_state hc
    exact (List.getElem?_eq_some_iff.mp hs).1
  case reduceReduce => exact exists_reduceReduce_iff hs
  case shiftReduce => exact exists_shiftReduce_iff hs
  case contents => exact fun c hc hstate => ⟨ofShiftReduce hs hc hstate, ofReduceReduce hs hc hstate⟩

end Automaton

namespace Grammar

/-- `x y` in three ways: `S` is `A y`, `B y` or `x y`, and both `A` and `B` are `x`. -/
def threefold : Grammar where
  symbols := ⟨["x", "y"], ["S", "A", "B"], by decide⟩
  productions := [⟨3, [4, 2]⟩, ⟨3, [5, 2]⟩, ⟨3, [1, 2]⟩, ⟨4, [1]⟩, ⟨5, [1]⟩]
  start := 3
  start_nonterminal := by decide
  fits := fun p hp => Production.fits_of_fault? (by revert p; decide)
  headed := by decide

end Grammar

namespace Automaton

open Grammar

/-- Behind `x` three productions compete for `y`. -/
theorem conflicts_exact_threefold :
    (of ⟨.slr, .shift, .first⟩ threefold).conflicts =
      [⟨1, .reduceReduce, [3, 4], [2]⟩, ⟨1, .shiftReduce, [3, 4, 2], [2]⟩] ∧
    ∃ s, (of ⟨.slr, .shift, .first⟩ threefold).states[1]? = some s ∧
      (∃ q q', q ≠ q' ∧ s.Completes threefold q ∧ s.Completes threefold q') ∧
      (∃ t, s.Collides threefold (of ⟨.slr, .shift, .first⟩ threefold).lookahead t) ∧
      Conflict.OfReduceReduce threefold .slr s ⟨1, .reduceReduce, [3, 4], [2]⟩ ∧
      Conflict.OfShiftReduce threefold (of ⟨.slr, .shift, .first⟩ threefold).lookahead s
        ⟨1, .shiftReduce, [3, 4, 2], [2]⟩ := by
  have hconflicts : (of ⟨.slr, .shift, .first⟩ threefold).conflicts =
      [⟨1, .reduceReduce, [3, 4], [2]⟩, ⟨1, .shiftReduce, [3, 4, 2], [2]⟩] := by decide +kernel
  have hlt : 1 < (of ⟨.slr, .shift, .first⟩ threefold).states.length := by decide +kernel
  obtain ⟨-, -, -, hexact⟩ := conflicts_exact ⟨.slr, .shift, .first⟩ threefold
  obtain ⟨hreduces, hshifts, hcontents⟩ := hexact 1 _ (List.getElem?_eq_getElem hlt)
  have hreduce :
      (⟨1, .reduceReduce, [3, 4], [2]⟩ : Conflict) ∈ (of ⟨.slr, .shift, .first⟩ threefold).conflicts := by
    simp [hconflicts]
  have hshift :
      (⟨1, .shiftReduce, [3, 4, 2], [2]⟩ : Conflict) ∈ (of ⟨.slr, .shift, .first⟩ threefold).conflicts := by
    simp [hconflicts]
  exact ⟨hconflicts, _, List.getElem?_eq_getElem hlt, hreduces.mp ⟨_, hreduce, rfl, rfl⟩,
    hshifts.mp ⟨_, hshift, rfl, rfl⟩, (hcontents _ hreduce rfl).2 rfl, (hcontents _ hshift rfl).1 rfl⟩

end Automaton

end ShiftReduce
