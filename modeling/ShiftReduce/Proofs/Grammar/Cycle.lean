import ShiftReduce.Grammar.Defects
import ShiftReduce.Proofs.Grammar.First

/-!
# Nonterminals that derive themselves

A derivation that ends in one nonterminal keeps an ancestor of it at every time, and all that stands beside the
ancestor vanishes. So each production on the way makes a step of the search for cycles, and a nonterminal
that derives itself by a production or more is found (`mem_cyclic`).
-/

namespace ShiftReduce.Grammar

variable {g : Grammar} {a b : Nat} {p : Production}

/-- A symbol survives at a place where all that stands beside it is nullable. -/
theorem mem_survivors {nullable body : List Nat} : b ∈ g.survivors nullable body ↔ g.symbols.isNonterminal b ∧
    ∃ l r, body = l ++ b :: r ∧ (∀ x ∈ l, x ∈ nullable) ∧ ∀ x ∈ r, x ∈ nullable := by
  simp only [survivors, List.mem_filterMap, Option.ite_none_right_eq_some, Bool.and_eq_true, Option.some.injEq,
    List.all_eq_true, List.contains_iff_mem]
  constructor
  · rintro ⟨⟨c, i⟩, hget, ⟨hb, hall⟩, rfl⟩
    obtain ⟨hlt, hc⟩ := List.getElem?_eq_some_iff.mp (List.mem_zipIdx_iff_getElem?.mp hget)
    rw [List.eraseIdx_eq_take_drop_succ, List.forall_mem_append] at hall
    refine ⟨hb, body.take i, body.drop (i + 1), ?_, hall⟩
    rw [← hc, List.getElem_cons_drop, List.take_append_drop]
  · rintro ⟨hb, l, r, rfl, hl, hr⟩
    refine ⟨(b, l.length), List.mem_zipIdx_iff_getElem?.mpr (by simp), ⟨hb, ?_⟩, rfl⟩
    rw [List.eraseIdx_append_of_length_le (Nat.le_refl _), Nat.sub_self, List.eraseIdx_cons_zero]
    exact List.forall_mem_append.mpr ⟨hl, hr⟩

theorem mem_unitTargets {nullable : List Nat} : b ∈ g.unitTargets nullable a ↔ g.symbols.isNonterminal b ∧
    ∃ p ∈ g.productions, p.lhs = a ∧
      ∃ l r, p.rhs = l ++ b :: r ∧ (∀ x ∈ l, x ∈ nullable) ∧ ∀ x ∈ r, x ∈ nullable := by
  simp only [unitTargets, List.mem_flatMap, mem_bodiesOf, mem_survivors]
  constructor
  · rintro ⟨_, ⟨p, hp, hlhs, rfl⟩, hb, hplace⟩
    exact ⟨hb, p, hp, hlhs, hplace⟩
  · rintro ⟨hb, p, hp, hlhs, hplace⟩
    exact ⟨p.rhs, ⟨p, hp, hlhs, rfl⟩, hb, hplace⟩

theorem unitTargets_subset (nullable : List Nat) (a : Nat) : g.unitTargets nullable a ⊆ g.symbols.nonterminalIds :=
  fun _ hb => g.symbols.mem_nonterminalIds.mpr (mem_unitTargets.mp hb).1

/-- A string that derives one nonterminal has an ancestor of it, and the rest of the string vanishes. -/
theorem exists_ancestor {u : List Nat} (h : g.Derives u [a]) (ha : g.symbols.isNonterminal a) :
    ∃ l b r, u = l ++ b :: r ∧ g.symbols.isNonterminal b ∧ (∀ x ∈ l, x ∈ g.nullable) ∧
      (∀ x ∈ r, x ∈ g.nullable) ∧ Leads (g.unitTargets g.nullable) b a := by
  induction h using Relation.ReflTransGen.head_induction_on with
  | refl => exact ⟨[], a, [], rfl, ha, by simp, by simp, .refl⟩
  | head hstep _ ih =>
    obtain ⟨p, hp, before, behind, rfl, rfl⟩ := hstep
    obtain ⟨l, b, r, hu, hb, hl, hr, hlead⟩ := ih
    have hnull := mem_nullable_of_rhs hp
    -- the ancestor is beside the right-hand side, which then vanishes, or in it
    rcases append_eq_append_cons hu with ⟨m, hm, rfl⟩ | ⟨m, rfl, rfl⟩
    · rcases append_eq_append_cons hm with ⟨m, rfl, rfl⟩ | ⟨m', rfl, hrhs⟩
      · refine ⟨l, b, m ++ p.lhs :: behind, by simp, hb, hl, fun x hx => ?_, hlead⟩
        grind
      · refine ⟨before, p.lhs, behind, rfl, (g.fits p hp).lhs, fun x hx => hl x (List.mem_append_left _ hx),
          fun x hx => hr x (List.mem_append_right _ hx), ?_⟩
        have htarget : b ∈ g.unitTargets g.nullable p.lhs := mem_unitTargets.mpr ⟨hb, p, hp, rfl, _, _, hrhs,
          fun x hx => hl x (List.mem_append_right _ hx), fun x hx => hr x (List.mem_append_left _ hx)⟩
        exact Leads.trans (Leads.tail .refl htarget) hlead
    · refine ⟨before ++ p.lhs :: m, b, r, by simp, hb, fun x hx => ?_, hr, hlead⟩
      grind

/-- The search goes from the unit targets of a nonterminal back to it. -/
theorem mem_cyclic_iff_leads : a ∈ g.cyclic ↔
    g.symbols.isNonterminal a ∧ ∃ b ∈ g.unitTargets g.nullable a, Leads (g.unitTargets g.nullable) b a := by
  rw [cyclic, List.mem_filter, List.contains_iff_mem, g.symbols.mem_nonterminalIds]
  exact and_congr_right' (mem_reach g.symbols.length_nonterminalIds_le (unitTargets_subset _ _) (unitTargets_subset _))

/-- A nonterminal that derives itself by some production is found. -/
theorem mem_cyclic (hp : p ∈ g.productions) (h : g.Derives p.rhs [p.lhs]) : p.lhs ∈ g.cyclic := by
  have hlhs := (g.fits p hp).lhs
  obtain ⟨l, b, r, hrhs, hb, hl, hr, hlead⟩ := exists_ancestor h hlhs
  exact mem_cyclic_iff_leads.mpr ⟨hlhs, b, mem_unitTargets.mpr ⟨hb, p, hp, rfl, l, r, hrhs, hl, hr⟩, hlead⟩

end ShiftReduce.Grammar
