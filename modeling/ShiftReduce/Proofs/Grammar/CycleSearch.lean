import ShiftReduce.Proofs.Grammar.Cycle
import ShiftReduce.Proofs.Grammar.FirstExact
import ShiftReduce.Proofs.Worklist

/-!
# No other nonterminals derive themselves

A unit target of a nonterminal is derived from it by a production and by letting the neighbours vanish, so a way back in
the search for cycles is a derivation (`Grammar.mem_cyclic_iff`). The search told with a stack comes to a verdict for each
nonterminal, and the nonterminals that are found are those that derive themselves in one step or more
(`Grammar.cyclic_exact`).
-/

namespace ShiftReduce.Grammar

variable {g : Grammar} {a b : Nat}

/-- Between neighbours that vanish a symbol is left. -/
theorem derives_survivor {l r : List Nat} (hl : ∀ x ∈ l, x ∈ g.nullable) (hr : ∀ x ∈ r, x ∈ g.nullable) :
    g.Derives (l ++ b :: r) [b] := by
  have hback : g.Derives r [] := by simpa using derives_of_nullable hr []
  exact (derives_of_nullable hl _).trans (hback.append_left [b])

theorem derives_unitTarget (h : b ∈ g.unitTargets g.nullable a) : Relation.TransGen g.Produces [a] [b] := by
  obtain ⟨-, p, hp, rfl, l, r, hrhs, hl, hr⟩ := mem_unitTargets.mp h
  exact .head' (.of_production hp) (hrhs ▸ derives_survivor hl hr)

theorem derives_of_leads (h : Leads (g.unitTargets g.nullable) a b) : g.Derives [a] [b] := by
  induction h with
  | refl => exact .refl _
  | tail _ hc ih => exact ih.trans (derives_unitTarget hc).to_reflTransGen

/-- The nonterminals that are found are those that derive themselves. -/
theorem mem_cyclic_iff : a ∈ g.cyclic ↔ Relation.TransGen g.Produces [a] [a] := by
  constructor
  · intro h
    obtain ⟨-, b, hb, hlead⟩ := mem_cyclic_iff_leads.mp h
    exact (derives_unitTarget hb).trans_left (derives_of_leads hlead)
  · intro h
    obtain ⟨v, ⟨p, hp, l, r, hlhs, rfl⟩, hv⟩ := Relation.TransGen.head'_iff.mp h
    rcases List.cons_eq_append_iff.mp hlhs with ⟨rfl, hcons⟩ | ⟨_, rfl, hnil⟩
    · obtain ⟨rfl, rfl⟩ := List.cons.inj hcons
      rw [List.nil_append, List.append_nil] at hv
      exact mem_cyclic hp hv
    · simp at hnil

variable (g) in
/-- The unit targets of a nonterminal, ascending. -/
def unitRow (a : Nat) : List Nat :=
  g.symbols.nonterminalIds.filter ((g.unitTargets g.nullable a).contains ·)

theorem mem_unitRow : b ∈ g.unitRow a ↔ b ∈ g.unitTargets g.nullable a := by
  rw [unitRow, List.mem_filter, List.contains_iff_mem]
  exact and_iff_right_of_imp fun h => unitTargets_subset _ _ h

/-- The search from the unit targets of a nonterminal comes to an end and says whether the nonterminal is found. -/
theorem exists_leadsBack_unitRow (ha : g.symbols.isNonterminal a) :
    ∃ verdict, LeadsBack g.unitRow a [] (g.unitRow a).reverse verdict ∧ (verdict = true ↔ a ∈ g.cyclic) := by
  have hnodes : ∀ b, g.unitRow b ⊆ g.symbols.nonterminalIds := fun _ => List.filter_subset_self _
  have hstack : (g.unitRow a).reverse ⊆ g.symbols.nonterminalIds := fun b hb => hnodes a (List.mem_reverse.mp hb)
  obtain ⟨verdict, h⟩ := exists_leadsBack hnodes List.nodup_nil (List.nil_subset _) hstack
  have hleads : ∀ b, Leads g.unitRow b a ↔ Leads (g.unitTargets g.nullable) b a := fun b =>
    ⟨Leads.mono fun _ _ hc => mem_unitRow.mp hc, Leads.mono fun _ _ hc => mem_unitRow.mpr hc⟩
  refine ⟨verdict, h, (h.verdict_iff List.not_mem_nil (by simp)).trans ?_⟩
  simp only [mem_cyclic_iff_leads, List.mem_reverse, mem_unitRow, hleads, ha, true_and]

/-- The cyclic nonterminals are listed ascending, and they are those that derive themselves in one step or more. The
search that is made for each nonterminal comes to a verdict, and that is whether it is listed. -/
theorem cyclic_exact (g : Grammar) : g.cyclic.Pairwise (· < ·) ∧
    (∀ a, a ∈ g.cyclic ↔ g.symbols.isNonterminal a ∧ Relation.TransGen g.Produces [a] [a]) ∧
    ∀ a, g.symbols.isNonterminal a →
      ∃ verdict, LeadsBack g.unitRow a [] (g.unitRow a).reverse verdict ∧ (verdict = true ↔ a ∈ g.cyclic) := by
  refine ⟨?_, fun a => ?_, fun a ha => exists_leadsBack_unitRow ha⟩
  · exact List.Pairwise.filter _ List.pairwise_lt_range'
  · rw [← mem_cyclic_iff]
    exact (and_iff_right_of_imp fun h => (mem_cyclic_iff_leads.mp h).1).symm

end ShiftReduce.Grammar
