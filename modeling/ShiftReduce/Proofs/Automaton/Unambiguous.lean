import ShiftReduce.Proofs.Automaton.Conflict
import ShiftReduce.Proofs.Automaton.Viable
import ShiftReduce.Proofs.Grammar.Cycle

/-!
# Grammars without conflicts and cycles are unambiguous

Where no conflict is reported a string has one handle at most: the state behind a handle is complete for it alone
(`Handle.eq_of_eq`), and it has no edge on the terminal behind it, which follows the head (`Handle.not_before`).
So two rightmost derivations of a string have their last production in common, and the string before it. What
the automaton cannot see is where to stop, as the start has no production above it; but a derivation that
goes on from the start to the start is a cycle.
-/

namespace ShiftReduce

namespace Grammar

/-- A rightmost derivation from the start has put a right-hand side between `before` and terminals. -/
structure Handle (g : Grammar) (before : List Nat) (q : Nat) (p : Production) (w : List Nat) : Prop where
  production : g.productions[q]? = some p
  terminal : g.Terminal w
  derived : ∃ ps, g.Rightmost ps [g.start] (before ++ p.lhs :: w)

namespace Handle

variable {g : Grammar} {options : Options} {before before' w w' ss : List Nat} {q q' x : Nat} {p p' : Production}

theorem valid (h : g.Handle before q p w) : g.Valid (before ++ p.rhs) ⟨q, p.rhs.length⟩ := by
  obtain ⟨ps, hright⟩ := h.derived
  have hlhs := (g.fits p (List.mem_of_getElem? h.production)).lhs
  obtain ⟨behind, hspine⟩ := Rooted.of_rightmost hright rooted_start before p.lhs w rfl hlhs
  exact ⟨p, before, behind, h.production, Nat.le_refl _, hspine, by rw [List.take_length]⟩

theorem mem_follow (h : g.Handle before q p (x :: w)) : x ∈ (FollowTable.of g (FirstTable.of g)).follow p.lhs := by
  obtain ⟨ps, hright⟩ := h.derived
  have hend := hright.derives.append_right [endId]
  rw [List.append_assoc] at hend
  have hlhs := (g.fits p (List.mem_of_getElem? h.production)).lhs
  exact FollowTable.mem_follow_of_next hend hlhs (h.terminal x List.mem_cons_self)

section

variable (hfree : (Automaton.of options g).conflicts = [])

include hfree

theorem reduce?_eq (h : g.Handle before q p w) (hpath : (Automaton.of options g).Path (before ++ p.rhs).reverse ss) :
    (Automaton.of options g).reduce? (ss.headD 0) = some q := by
  refine Automaton.reduce?_of_complete hfree h.production (hpath.mem_itemsAt_iff.mpr ?_)
  rw [List.reverse_reverse]
  exact h.valid

/-- Two handles that end at one place are the same. -/
theorem eq_of_eq (h : g.Handle before q p w) (h' : g.Handle before' q' p' w')
    (hend : before ++ p.rhs = before' ++ p'.rhs) : before = before' ∧ q = q' ∧ p = p' := by
  obtain ⟨ss, hpath, -⟩ := Automaton.exists_path_of_valid options h.valid
  have hq := h.reduce?_eq hfree hpath
  rw [hend] at hpath
  obtain rfl : q = q' := Option.some.inj (hq.symm.trans (h'.reduce?_eq hfree hpath))
  obtain rfl := Option.some.inj (h.production.symm.trans h'.production)
  exact ⟨List.append_cancel_right hend, rfl, rfl⟩

/-- No handle ends before another one with terminals between them. -/
theorem not_before {m : List Nat} (h : g.Handle before q p (x :: (m ++ w'))) (h' : g.Handle before' q' p' w') :
    before' ++ p'.rhs ≠ before ++ p.rhs ++ x :: m := by
  intro hend
  obtain ⟨ss, hpath, -⟩ := Automaton.exists_path_of_valid options h'.valid
  have hlater : (Automaton.of options g).Path (m.reverse ++ x :: (before ++ p.rhs).reverse) ss := by
    rw [hend] at hpath
    simpa using hpath
  -- the path of the handle that ends later passes the state of the other one and leaves it with `x`
  have hedge := hlater.rest
  generalize ss.drop m.length = ss' at hedge
  cases hedge with
  | push hpath hm =>
    obtain ⟨i, hi, hnext⟩ := Automaton.exists_next_of_transition? hm
    have hx := h.terminal x List.mem_cons_self
    refine Automaton.not_admits_of_next hfree hi hnext hx (h.reduce?_eq hfree hpath) ?_
    exact Automaton.admits_of_mem_follow h.production h.mem_follow

theorem unique (h : g.Handle before q p w) (h' : g.Handle before' q' p' w')
    (heq : before ++ p.rhs ++ w = before' ++ p'.rhs ++ w') : before = before' ∧ q = q' ∧ p = p' ∧ w = w' := by
  rcases List.append_eq_append_iff.mp heq with ⟨m, hend, rfl⟩ | ⟨m, hend, rfl⟩
  · rcases m with - | ⟨x, m⟩
    · rw [List.append_nil] at hend
      obtain ⟨hbefore, hq, hp⟩ := h.eq_of_eq hfree h' hend.symm
      exact ⟨hbefore, hq, hp, rfl⟩
    · exact absurd hend (h.not_before hfree h')
  · rcases m with - | ⟨x, m⟩
    · rw [List.append_nil] at hend
      obtain ⟨hbefore, hq, hp⟩ := h.eq_of_eq hfree h' hend
      exact ⟨hbefore, hq, hp, rfl⟩
    · exact absurd hend (h'.not_before hfree h)

end

end Handle

variable {g : Grammar} {options : Options} {ps ps' u : List Nat} {q a : Nat}

theorem Rightmost.exists_handle (h : g.Rightmost (ps ++ [q]) [g.start] u) :
    ∃ before p w, u = before ++ p.rhs ++ w ∧ g.Handle before q p w ∧ g.Rightmost ps [g.start] (before ++ p.lhs :: w) := by
  obtain ⟨p, before, w, hq, hw, hps, rfl⟩ := h.exists_last
  exact ⟨before, p, w, rfl, ⟨hq, hw, ps, hps⟩, hps⟩

/-- Without cycles a derivation that comes back to its nonterminal has not left it. -/
theorem Rightmost.eq_nil_of_acyclic (hacyc : g.cyclic = []) (h : g.Rightmost ps [a] [a]) : ps = [] := by
  generalize hu : [a] = u at h
  cases h with
  | refl => rfl
  | @expand q p before w ps _ hq hw h =>
    rcases List.cons_eq_append_iff.mp hu with ⟨rfl, hlhs⟩ | ⟨_, rfl, hnil⟩
    · obtain ⟨rfl, rfl⟩ := List.cons.inj hlhs
      have hderives := h.derives
      rw [List.nil_append, List.append_nil, List.nil_append] at hderives
      have hmem := mem_cyclic (List.mem_of_getElem? hq) hderives
      rw [hacyc] at hmem
      exact absurd hmem List.not_mem_nil
    · simp at hnil

/-- If under some options no conflict is reported and no nonterminal derives itself, then each string has at most
one rightmost derivation from the start. -/
theorem rightmost_unique (hfree : (Automaton.of options g).conflicts = []) (hacyc : g.cyclic = [])
    (h : g.Rightmost ps [g.start] u) (h' : g.Rightmost ps' [g.start] u) : ps = ps' := by
  induction ps using List.reverseRecOn generalizing u ps' with
  | nil =>
    cases h
    exact (h'.eq_nil_of_acyclic hacyc).symm
  | append_singleton ps q ih =>
    rcases List.eq_nil_or_concat' ps' with rfl | ⟨ps', q', rfl⟩
    · cases h'
      exact h.eq_nil_of_acyclic hacyc
    · obtain ⟨before, p, w, rfl, hhandle, hps⟩ := h.exists_handle
      obtain ⟨before', p', w', heq, hhandle', hps'⟩ := h'.exists_handle
      obtain ⟨rfl, rfl, rfl, rfl⟩ := hhandle.unique hfree hhandle' heq
      rw [ih hps hps']

/-- `a b` is derived by the two productions in order and in no other way. -/
theorem rightmost_unique_nested :
    nested.Rightmost [0, 1] [3] [1, 2] ∧ ∀ ps, nested.Rightmost ps [3] [1, 2] → ps = [0, 1] := by
  have hb : nested.Terminal [2] := .singleton (by decide)
  have hempty : nested.Rightmost [1] [1, 3, 2] [1, 2] := .expand (P := ⟨3, []⟩) (a := [1]) (w := [2]) rfl hb (.refl _)
  have hab : nested.Rightmost [0, 1] [3] [1, 2] := .expand (P := ⟨3, [1, 3, 2]⟩) (a := []) (w := []) rfl .nil hempty
  have hfree : (Automaton.of ⟨.slr, .shift, .first⟩ nested).conflicts = [] := by decide +kernel
  exact ⟨hab, fun ps h => rightmost_unique hfree (by decide +kernel) h hab⟩

end Grammar

end ShiftReduce
