import ShiftReduce.Proofs.Automaton.Path

/-!
# Every valid item is in a state

What `Path.valid` says has a converse. Every string that a valid item can stand behind leads along a path, and the
item is in the state that the path ends in (`exists_path_of_valid`); as a path is told by its string, the state
has these items and no others (`Path.mem_itemsAt_iff`). Behind what a rightmost derivation leaves before one of
its nonterminals the productions of the nonterminal are valid (`Rooted`).
-/

namespace ShiftReduce

namespace Grammar

variable {g : Grammar} {a : Nat} {u v : List Nat} {ps : List Nat}

/-- All nonterminals of the string can be come to with what stands before them left as it is. -/
def Rooted (g : Grammar) (u : List Nat) : Prop :=
  ∀ before a behind, u = before ++ a :: behind → g.symbols.isNonterminal a → ∃ behind', g.Spine before a behind'

theorem rooted_start : g.Rooted [g.start] := by
  intro before a behind hu ha
  rcases List.cons_eq_append_iff.mp hu with ⟨rfl, hstart⟩ | ⟨_, -, hnil⟩
  · obtain ⟨rfl, -⟩ := List.cons.inj hstart
    exact ⟨[], .start⟩
  · simp at hnil

/-- Only terminals stand behind a nonterminal that is expanded. -/
theorem Rooted.expand {p : Production} {w : List Nat} (h : g.Rooted (u ++ p.lhs :: w)) (hp : p ∈ g.productions)
    (hw : g.Terminal w) : g.Rooted (u ++ p.rhs ++ w) := by
  intro before a behind hu ha
  rcases append_eq_append_cons hu with ⟨m, hm, rfl⟩ | ⟨m, rfl, hm⟩
  · rcases append_eq_append_cons hm with ⟨m, rfl, rfl⟩ | ⟨m', rfl, hrhs⟩
    · exact h before a (m ++ p.lhs :: w) (by simp) ha
    · obtain ⟨behind', hspine⟩ := h u p.lhs w rfl (g.fits p hp).lhs
      exact ⟨_, hspine.expand hp hrhs⟩
  · have ht := hw a (by simp [hm])
    exact absurd ht (g.symbols.not_isTerminal_of_isNonterminal ha)

theorem Rooted.of_rightmost (h : g.Rightmost ps u v) (hu : g.Rooted u) : g.Rooted v := by
  induction h with
  | refl => exact hu
  | expand hp hw _ ih => exact ih (hu.expand (List.mem_of_getElem? hp) hw)

end Grammar

namespace Automaton

variable {g : Grammar} {options : Options} {xs ss : List Nat} {q : Nat} {p : Production}

/-- A string leads along one path only. -/
theorem Path.unique {a : Automaton} {ss' : List Nat} (h : a.Path xs ss) (h' : a.Path xs ss') : ss = ss' := by
  induction h generalizing ss' with
  | nil =>
    cases h'
    rfl
  | push _ hs ih =>
    cases h' with
    | push h' hs' =>
      obtain rfl := ih h'
      rw [Option.some.inj (hs.symm.trans hs')]

/-- From a state that has a production at its start the symbols of the right-hand side lead on. -/
theorem Path.along (h : (of options g).Path xs ss) (hq : g.productions[q]? = some p)
    (hi : .atStart q ∈ (of options g).itemsAt (ss.headD 0)) {ys zs : List Nat} (hrhs : p.rhs = ys ++ zs) :
    ∃ ss', (of options g).Path (ys.reverse ++ xs) ss' ∧ ⟨q, ys.length⟩ ∈ (of options g).itemsAt (ss'.headD 0) := by
  induction ys using List.reverseRecOn generalizing zs with
  | nil => exact ⟨ss, h, hi⟩
  | append_singleton ys y ih =>
    rw [List.append_assoc] at hrhs
    obtain ⟨ss', hpath, hmem⟩ := ih hrhs
    have hnext : Item.next? g ⟨q, ys.length⟩ = some y := by
      rw [Item.next?, Grammar.rhs_eq hq, hrhs]
      simp
    obtain ⟨m, hm, hmem'⟩ := shifted_mem hmem hnext
    refine ⟨m :: ss', ?_, ?_⟩
    · rw [List.reverse_append]
      exact hpath.push hm
    · rw [List.length_append]
      exact hmem'

theorem exists_path_of_spine (options : Options) {before behind : List Nat} {x : Nat} (h : g.Spine before x behind) :
    ∃ ss, (of options g).Path before.reverse ss ∧ ∀ q p, g.productions[q]? = some p → p.lhs = x →
      .atStart q ∈ (of options g).itemsAt (ss.headD 0) := by
  induction h with
  | start => exact ⟨[0], .nil, fun _ _ hq hstart => atStart_mem_itemsAt_zero hq hstart⟩
  | @expand before behind ys zs x p _ hp hrhs ih =>
    obtain ⟨ss, hpath, hopen⟩ := ih
    obtain ⟨q, hq⟩ := List.getElem?_of_mem hp
    obtain ⟨ss', hpath', hmem⟩ := hpath.along hq (hopen q p hq rfl) hrhs
    refine ⟨ss', by rwa [List.reverse_append], fun q' p' hq' hx => itemsAt_closed hmem hq' ?_⟩
    rw [Item.next?, Grammar.rhs_eq hq, hrhs, hx]
    simp

theorem exists_path_of_valid (options : Options) {i : Item} (h : g.Valid xs i) :
    ∃ ss, (of options g).Path xs.reverse ss ∧ i ∈ (of options g).itemsAt (ss.headD 0) := by
  obtain ⟨p, before, behind, hq, hdot, hspine, rfl⟩ := h
  obtain ⟨ss, hpath, hopen⟩ := exists_path_of_spine options hspine
  obtain ⟨ss', hpath', hmem⟩ := hpath.along hq (hopen _ p hq rfl) (List.take_append_drop i.dot p.rhs).symm
  rw [List.length_take, Nat.min_eq_left hdot] at hmem
  rw [List.reverse_append]
  exact ⟨ss', hpath', hmem⟩

/-- The state at the end of a path has the items that are valid behind its string. -/
theorem Path.mem_itemsAt_iff {i : Item} (h : (of options g).Path xs ss) :
    i ∈ (of options g).itemsAt (ss.headD 0) ↔ g.Valid xs.reverse i := by
  refine ⟨h.valid i, fun hi => ?_⟩
  obtain ⟨ss', hpath, hmem⟩ := exists_path_of_valid options hi
  rw [List.reverse_reverse] at hpath
  obtain rfl := h.unique hpath
  exact hmem

end Automaton

end ShiftReduce
