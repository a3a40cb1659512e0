import ShiftReduce.Grammar.Defects
import ShiftReduce.Proofs.Grammar.Derivation
import ShiftReduce.Proofs.Grammar.First
import ShiftReduce.Proofs.Reach

/-!
# Reachable symbols

A symbol is reached when a derivation from the start produces it (`Grammar.Reaches`). `Grammar.mem_reachable`: the
search over right-hand sides finds exactly these symbols.
-/

namespace ShiftReduce.Grammar

variable {g g' : Grammar} {x a : Nat} {p : Production}

/-- A derivation from the start produces the symbol. -/
def Reaches (g : Grammar) (x : Nat) : Prop :=
  ∃ before behind, g.Derives [g.start] (before ++ x :: behind)

namespace Reaches

theorem start : g.Reaches g.start :=
  ⟨[], [], .refl _⟩

theorem of_mem_rhs (h : g.Reaches p.lhs) (hp : p ∈ g.productions) (hx : x ∈ p.rhs) : g.Reaches x := by
  obtain ⟨before, behind, h⟩ := h
  obtain ⟨l, r, hrhs⟩ := List.append_of_mem hx
  refine ⟨before ++ l, r ++ behind, h.tail ⟨p, hp, before, behind, rfl, ?_⟩⟩
  rw [hrhs]
  simp

/-- What holds of the start and passes from heads to their right-hand sides holds of all symbols that are reached. -/
theorem induction {P : Nat → Prop} (hstart : P g.start)
    (hnext : ∀ p ∈ g.productions, P p.lhs → ∀ x ∈ p.rhs, P x) (h : g.Reaches x) : P x := by
  obtain ⟨before, behind, h⟩ := h
  refine h.forall_mem hnext (fun y hy => ?_) x (List.mem_append_right _ List.mem_cons_self)
  rwa [List.mem_singleton.mp hy]

/-- With the productions of its reached heads kept, a grammar reaches no less. -/
theorem mono (hstart : g'.start = g.start) (hkept : ∀ p ∈ g.productions, g.Reaches p.lhs → p ∈ g'.productions)
    (h : g.Reaches x) : g'.Reaches x := by
  have hboth : g.Reaches x ∧ g'.Reaches x := by
    refine h.induction (P := fun x => g.Reaches x ∧ g'.Reaches x) ⟨start, hstart ▸ start⟩ fun p hp hl x hx => ?_
    exact ⟨hl.1.of_mem_rhs hp hx, hl.2.of_mem_rhs (hkept p hp hl.1) hx⟩
  exact hboth.2

end Reaches

theorem mem_mentions : x ∈ g.mentions a ↔ ∃ p ∈ g.productions, p.lhs = a ∧ x ∈ p.rhs := by
  simp only [mentions, List.mem_flatten, mem_bodiesOf]
  constructor
  · rintro ⟨_, ⟨p, hp, hl, rfl⟩, hx⟩
    exact ⟨p, hp, hl, hx⟩
  · rintro ⟨p, hp, hl, hx⟩
    exact ⟨_, ⟨p, hp, hl, rfl⟩, hx⟩

theorem reaches_iff_leads : g.Reaches x ↔ Leads g.mentions g.start x := by
  constructor
  · refine Reaches.induction .refl fun p hp h y hy => ?_
    exact h.tail (mem_mentions.mpr ⟨p, hp, rfl, hy⟩)
  · intro h
    induction h with
    | refl => exact .start
    | tail _ hx ih =>
      obtain ⟨p, hp, rfl, hmem⟩ := mem_mentions.mp hx
      exact ih.of_mem_rhs hp hmem

/-- The symbols that the search lists are those that are reached. -/
theorem mem_reachable : x ∈ g.reachable ↔ g.Reaches x := by
  have hstart : [g.start] ⊆ List.range g.symbols.size := by
    simpa using g.symbols.lt_size_of_isNonterminal g.start_nonterminal
  have hmentions : ∀ a, g.mentions a ⊆ List.range g.symbols.size := by
    intro a y hy
    obtain ⟨p, hp, -, hy⟩ := mem_mentions.mp hy
    exact List.mem_range.mpr (lt_size_of_mem_rhs hp hy)
  rw [reachable, mem_reach (Nat.le_of_eq List.length_range) hstart hmentions, reaches_iff_leads]
  simp

instance (g : Grammar) (x : Nat) : Decidable (g.Reaches x) :=
  decidable_of_iff _ mem_reachable

end ShiftReduce.Grammar
