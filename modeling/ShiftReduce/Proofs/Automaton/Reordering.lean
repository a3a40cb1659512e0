import ShiftReduce.Proofs.Automaton.Detection
import ShiftReduce.Proofs.Automaton.Renumbering
import ShiftReduce.Proofs.Grammar.Reordering

/-!
# The order of productions has no part in the automaton

A grammar whose productions are listed in another order has the same states in the same order, with the same edges, and
the same conflicts, but for the numbers of productions (`Automaton.reordered_of`). Items are kept by ascending production,
so what is listed in the order of the items comes in another order.
-/

namespace ShiftReduce

variable {f : Nat → Nat} {g g' : Grammar} {l l' : Lookahead} {s s' : State} {n : Nat}

/-- The record with other numbers of productions. -/
structure Conflict.Renumbered (f : Nat → Nat) (c c' : Conflict) : Prop where
  state : c'.state = c.state
  kind : c'.kind = c.kind
  productions : c'.productions.Perm (c.productions.map f)
  symbols : c'.symbols = c.symbols

namespace State.Renumbered

variable (h : Renumbered f s s') (hg : g.Renumbers f g') (hlive : ∀ i ∈ s.items, g.Live i)
  (hl : s.SameLookahead f l l')

include h hg hlive in
theorem perm_competing (xs : List Nat) : (distinct (s'.candidates ++ xs.flatMap (s'.shifters g'))).Perm
    ((distinct (s.candidates ++ xs.flatMap (s.shifters g))).map f) := by
  refine (List.perm_ext_iff_of_nodup nodup_distinct (nodup_distinct.map hg.injective)).mpr fun q => ?_
  simp only [mem_distinct, List.mem_append, List.mem_flatMap, List.mem_map, h.mem_shifters hg hlive,
    h.candidates.mem_iff, or_and_right, exists_or]
  refine or_congr_right ?_
  constructor
  · rintro ⟨t, ht, q₀, hq, rfl⟩
    exact ⟨q₀, ⟨t, ht, hq⟩, rfl⟩
  · rintro ⟨q₀, ⟨t, ht, hq⟩, rfl⟩
    exact ⟨t, ht, q₀, hq, rfl⟩

include h hg hlive hl in
/-- The state has the same conflicts under other numbers. -/
theorem conflicts : List.Forall₂ (Conflict.Renumbered f) (s.conflicts g l n) (s'.conflicts g' l' n) := by
  refine List.rel_append ?reduceReduce ?shiftReduce
  case reduceReduce =>
    rw [reduceReduce?, reduceReduce?, h.candidates.length_eq, List.length_map, h.overlap_eq hg hl, hl.1]
    split
    · exact .nil
    · exact .cons ⟨rfl, rfl, h.candidates, rfl⟩ .nil
  case shiftReduce =>
    rw [shiftReduce?, shiftReduce?, h.colliding_eq hg hlive hl]
    split
    · exact .nil
    · exact .cons ⟨rfl, rfl, h.perm_competing hg hlive _, rfl⟩ .nil

end State.Renumbered

theorem forall₂_zipIdx {α β : Type} {R : α → β → Prop} {as : List α} {bs : List β} (h : List.Forall₂ R as bs) (n : Nat) :
    List.Forall₂ (fun a b => R a.1 b.1 ∧ a.2 = b.2) (as.zipIdx n) (bs.zipIdx n) := by
  induction h generalizing n with
  | nil => exact .nil
  | cons hab _ ih => exact .cons ⟨hab, rfl⟩ (ih (n + 1))

namespace Automaton

variable {options : Options} {f : Equiv.Perm Nat}

/-- A permutation of the numbers of productions takes the lookahead of each production along. -/
theorem admits_of_perm (hsymbols : g'.symbols = g.symbols) (hstart : g'.start = g.start)
    (hf : ∀ q, g'.productions[f q]? = g.productions[q]?) {method : Method} (t : Nat) :
    (Lookahead.of method g').admits (f q) t = (Lookahead.of method g).admits q t := by
  have hmem : ∀ p, p ∈ g'.productions ↔ p ∈ g.productions := by
    intro p
    rw [List.mem_iff_getElem?, List.mem_iff_getElem?, f.surjective.exists]
    simp only [hf]
  rw [Bool.eq_iff_iff]
  cases method with
  | lr0 => rw [Lookahead.admits_lr0, Lookahead.admits_lr0, hf, hsymbols]
  | slr =>
    rw [Lookahead.admits_slr, Lookahead.admits_slr, Grammar.FollowsHead, Grammar.FollowsHead, hf]
    refine exists_congr fun p => and_congr_right fun hp => ?_
    rw [Grammar.follow_congr hsymbols hstart hmem (g.fits p (List.mem_of_getElem? hp)).lhs]

/-- A permutation of the numbers of productions is one of the states and of the conflicts in them. -/
theorem renumbered_of_perm (hsymbols : g'.symbols = g.symbols) (hstart : g'.start = g.start)
    (hf : ∀ q, g'.productions[f q]? = g.productions[q]?) :
    (of options g').reused = (of options g).reused ∧
    List.Forall₂ (State.Renumbered f) (of options g).states (of options g').states ∧
    List.Forall₂ (Conflict.Renumbered f) (of options g).conflicts (of options g').conflicts := by
  have hg := Grammar.renumbers_of_perm hsymbols hstart hf
  obtain ⟨hv, hlive⟩ := Survey.renumbered_of hg
  have hstates : List.Forall₂ (fun s s' => (∀ i ∈ s.items, g.Live i) ∧ State.Renumbered f s s')
      (of options g).states (of options g').states := by
    change List.Forall₂ _ ((Survey.of g).seeds.toList.map _) ((Survey.of g').seeds.toList.map _)
    rw [hv.seeds, List.forall₂_map_left_iff, List.map_map, List.forall₂_map_right_iff, List.forall₂_same]
    intro seed hseed
    have hkernel : ∀ i ∈ seed.kernel, g.Live i := hlive _ (List.mem_map_of_mem hseed)
    exact ⟨fun i hi => Grammar.live_closure hkernel i (Survey.mem_items_state.mp hi), hv.state hg hkernel⟩
  refine ⟨hv.reused, hstates.imp fun _ _ h => h.2, ?_⟩
  refine List.rel_flatMap (forall₂_zipIdx hstates 0) ?_
  rintro ⟨s, n⟩ ⟨s', _⟩ ⟨⟨hlive, h⟩, rfl⟩
  exact h.conflicts hg hlive ⟨rfl, fun q _ => admits_of_perm hsymbols hstart hf⟩

/-- The order in which a grammar lists its productions changes their numbers and nothing else in the automaton. -/
theorem reordered_of {v : Vocabulary} {ps : List Production} {start : Nat} (h : Grammar.of? v ps start = .ok g)
    (σ : Equiv.Perm (Fin ps.length)) (options : Options) :
    ∃ g', Grammar.of? v (reordered ps σ) start = .ok g' ∧
      (of options g').reused = (of options g).reused ∧
      List.Forall₂ (State.Renumbered (newNumber σ)) (of options g).states (of options g').states ∧
      List.Forall₂ (Conflict.Renumbered (newNumber σ)) (of options g).conflicts (of options g').conflicts := by
  obtain ⟨g', hg'⟩ := Grammar.exists_reordered h σ
  obtain ⟨rfl, rfl, rfl⟩ := Grammar.of?_eq_ok.mp h
  obtain ⟨hsymbols, hproductions, hstart⟩ := Grammar.of?_eq_ok.mp hg'
  refine ⟨g', hg', renumbered_of_perm hsymbols hstart fun q => ?_⟩
  rw [hproductions, getElem?_reordered]

open Grammar

/-- With its productions swapped the grammar of nested brackets has its empty one first. Both automata have four
states and two conflicts. -/
theorem reordered_of_nested : Grammar.of? nested.symbols nested.productions nested.start = .ok nested ∧
    ∃ g', Grammar.of? nested.symbols [⟨3, []⟩, ⟨3, [1, 3, 2]⟩] nested.start = .ok g' ∧
      (of {} nested).states.length = 4 ∧ (of {} g').states.length = 4 ∧
      (of {} nested).conflicts.length = 2 ∧ (of {} g').conflicts.length = 2 ∧ (of {} g').reused = 1 ∧
      List.Forall₂ (State.Renumbered (newNumber (Equiv.swap (0 : Fin 2) 1))) (of {} nested).states (of {} g').states ∧
      List.Forall₂ (Conflict.Renumbered (newNumber (Equiv.swap (0 : Fin 2) 1))) (of {} nested).conflicts
        (of {} g').conflicts := by
  have hnested : Grammar.of? nested.symbols nested.productions nested.start = .ok nested :=
    of?_eq_ok.mpr ⟨rfl, rfl, rfl⟩
  have hfour : (of {} nested).states.length = 4 := by decide +kernel
  have htwo : (of {} nested).conflicts.length = 2 := by decide +kernel
  have hone : (of {} nested).reused = 1 := by decide +kernel
  obtain ⟨g', hg', hreused, hstates, hconflicts⟩ :=
    reordered_of hnested (Equiv.swap ⟨0, by decide⟩ ⟨1, by decide⟩) {}
  exact ⟨hnested, g', hg', hfour, hstates.length_eq ▸ hfour, htwo, hconflicts.length_eq ▸ htwo, hreused.trans hone,
    hstates, hconflicts⟩

end Automaton

end ShiftReduce
