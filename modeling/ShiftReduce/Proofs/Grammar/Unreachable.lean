import Mathlib.Tactic.Tauto
import ShiftReduce.Proofs.Grammar.Index
import ShiftReduce.Proofs.Grammar.Reachable
import ShiftReduce.Proofs.Worklist

/-!
# Unreachable symbols

The symbols that are listed as unreachable are those that no derivation from the start produces
(`Grammar.unreachable_exact`). The search for the others goes through the productions of the nonterminals on a stack: it
takes the top off, marks what is new on the right-hand sides and puts the nonterminals among it on the stack. The stack
runs empty, and then just the symbols that are reached are marked (`Grammar.exists_drains_reachable`).
-/

namespace ShiftReduce.Grammar

variable {g : Grammar} {x a : Nat}

theorem mentions_eq (g : Grammar) (a : Nat) : g.mentions a = (g.productionsOf a).flatMap g.rhs := by
  rw [mentions, ← map_rhs_productionsOf, List.flatMap_def]

theorem mentions_subset (a : Nat) : g.mentions a ⊆ List.range g.symbols.size := by
  intro x hx
  obtain ⟨p, hp, -, hx⟩ := mem_mentions.mp hx
  exact List.mem_range.mpr (lt_size_of_mem_rhs hp hx)

theorem mentions_of_not_isNonterminal (ha : ¬ g.symbols.isNonterminal a) : g.mentions a = [] := by
  refine List.eq_nil_iff_forall_not_mem.mpr fun x hx => ?_
  obtain ⟨p, hp, rfl, -⟩ := mem_mentions.mp hx
  exact ha (g.fits p hp).lhs

variable (g) in
/-- The stack with the nonterminals among new symbols put on it, the last of them on top. -/
def stacked (rest new : List Nat) : List Nat :=
  (new.filter g.symbols.isNonterminal).reverse ++ rest

/-- What is not put on the stack is no nonterminal and has no productions to go through. -/
theorem joins_stacked : Joins g.mentions g.stacked where
  subset rest new x hx := by
    simp only [stacked, List.mem_append, List.mem_reverse, List.mem_filter] at hx ⊢
    tauto
  kept rest new x hx := by
    by_cases hn : g.symbols.isNonterminal x
    · left
      simpa [stacked, hn, or_comm] using hx
    · exact .inr (mentions_of_not_isNonterminal hn)
  length_le rest new := by
    have hle := List.length_filter_le g.symbols.isNonterminal new
    simp only [stacked, List.length_append, List.length_reverse]
    omega

/-- The stack that begins with the start runs empty, and the marked symbols are those that are reached. -/
theorem exists_drains_reachable (g : Grammar) :
    ∃ found, Drains g.mentions g.stacked [g.start] [g.start] found ∧ ∀ x, x ∈ found ↔ g.Reaches x := by
  have hstart : [g.start] ⊆ List.range g.symbols.size := by
    simpa using g.symbols.lt_size_of_isNonterminal g.start_nonterminal
  obtain ⟨found, hfound⟩ : ∃ found, Drains g.mentions g.stacked [g.start] [g.start] found :=
    exists_drains joins_stacked mentions_subset (by simp) hstart
  refine ⟨found, hfound, fun x => (hfound.mem_iff joins_stacked).trans ?_⟩
  rw [reaches_iff_leads]
  simp

theorem mem_unreachable : x ∈ g.unreachable ↔ x < g.symbols.size ∧ x ≠ endId ∧ ¬ g.Reaches x := by
  have hsize : 0 < g.symbols.size := Nat.zero_lt_of_lt (g.symbols.lt_size_of_isNonterminal g.start_nonterminal)
  simp only [unreachable, List.mem_filter, List.mem_range'_1, Bool.not_eq_true', List.contains_eq_mem,
    decide_eq_false_iff_not, mem_reachable, endId, ← and_assoc]
  refine and_congr_left fun _ => ?_
  omega

/-- The unreachable symbols are listed ascending, and they are the symbols other than the end terminal that no derivation
from the start produces. The search over the productions of the nonterminals that wait on the stack comes to an end, and
the symbols listed are those that it has not marked. -/
theorem unreachable_exact (g : Grammar) : g.unreachable.Pairwise (· < ·) ∧
    (∀ x, x ∈ g.unreachable ↔
      x < g.symbols.size ∧ x ≠ endId ∧ ¬ ∃ before behind, g.Derives [g.start] (before ++ x :: behind)) ∧
    ∃ found, Drains (fun a => (g.productionsOf a).flatMap g.rhs) g.stacked [g.start] [g.start] found ∧
      g.unreachable = (List.range' 1 (g.symbols.size - 1)).filter (!found.contains ·) := by
  refine ⟨?ascending, fun x => mem_unreachable, ?search⟩
  case ascending =>
    exact List.Pairwise.filter _ List.pairwise_lt_range'
  case search =>
    obtain ⟨found, hfound, hmem⟩ := exists_drains_reachable g
    have hnext : g.mentions = fun a => (g.productionsOf a).flatMap g.rhs := funext g.mentions_eq
    refine ⟨found, hnext ▸ hfound, List.filter_congr fun x _ => ?_⟩
    have hsame : g.reachable.contains x = found.contains x := by
      rw [Bool.eq_iff_iff, List.contains_iff_mem, List.contains_iff_mem, mem_reachable, hmem]
    rw [hsame]

end ShiftReduce.Grammar
