import Mathlib.Data.Finset.Prod
import ShiftReduce.Proofs.Grammar.FirstExact
import ShiftReduce.Proofs.Sweep

/-!
# FIRST found in sweeps over the productions

The nullable symbols and the FIRST sets told as two loops over the productions, each repeated until nothing is added.
Both come to an end (`Grammar.exists_sweeps_nullable`, `FirstTable.exists_sweeps_first`) and find what the table has. The
table has what is derived, of symbols and of strings (`FirstTable.first_exact`).
-/

namespace ShiftReduce

/-- When all symbols of its right-hand side are known to vanish, a production adds its head. -/
def Production.vanishing (p : Production) : Inference Nat :=
  fun known => if ∀ x ∈ p.rhs, x ∈ known then {p.lhs} else ∅

theorem Production.mem_vanishing {p : Production} {known : Finset Nat} {x : Nat} :
    x ∈ p.vanishing known ↔ x = p.lhs ∧ ∀ y ∈ p.rhs, y ∈ known := by
  rw [vanishing]
  split
  · next h => exact Finset.mem_singleton.trans (and_iff_left h).symm
  · next h => simp [h]

variable {g : Grammar}

namespace Grammar

variable (g) in
def nullableRules : List (Inference Nat) :=
  g.productions.map Production.vanishing

variable (g) in
/-- The terminals, each with itself. -/
def ownTerminals : Finset (Nat × Nat) :=
  (g.symbols.terminalIds.map fun t => (t, t)).toFinset

variable (g) in
/-- The head of a production takes over what its symbols begin with, up to the first symbol that cannot vanish; from
itself it takes over nothing. Known are pairs of a symbol and a terminal that it begins with. -/
def firstRules (nullable : List Nat) : List (Inference (Nat × Nat)) :=
  g.productions.flatMap fun p => ((leading nullable p.rhs).filter (· ≠ p.lhs)).map (takeOver p.lhs)

theorem mem_firstRules {nullable : List Nat} {rule : Inference (Nat × Nat)} : rule ∈ g.firstRules nullable ↔
    ∃ p ∈ g.productions, ∃ x ∈ leading nullable p.rhs, x ≠ p.lhs ∧ takeOver p.lhs x = rule := by
  simp [firstRules, and_assoc]

theorem exists_sweeps_nullable : ∃ found, Sweeps g.nullableRules ∅ found ∧ ∀ x, x ∈ found ↔ x ∈ g.nullable := by
  have hbound : ∀ x, x ∈ g.nullable → x ∈ g.nullable.toFinset := by simp
  refine exists_sweeps hbound (by simp) (fun rule hrule facts hfacts x hx => ?_) fun facts _ hclosed => ?_
  · obtain ⟨p, hp, rfl⟩ := List.mem_map.mp hrule
    obtain ⟨rfl, hrhs⟩ := Production.mem_vanishing.mp hx
    exact mem_nullable_of_rhs hp fun y hy => hfacts y (hrhs y hy)
  · refine settle_induction (P := fun known => ∀ x ∈ known, x ∈ facts) (fun known hknown a ha => ?_) (by simp)
    obtain ⟨-, p, hp, rfl, hrhs⟩ := mem_nullableRound.mp ha
    have hrule : p.vanishing ∈ g.nullableRules := List.mem_map_of_mem hp
    exact hclosed _ hrule (Production.mem_vanishing.mpr ⟨rfl, fun y hy => hknown y (hrhs y hy)⟩)

end Grammar

namespace FirstTable

variable {x t : Nat}

/-- Facts that the rules keep and that have the terminals themselves have all of FIRST. -/
theorem mem_of_mem_first {facts : Finset (Nat × Nat)} (hown : g.ownTerminals ⊆ facts)
    (hclosed : ∀ rule ∈ g.firstRules g.nullable, rule facts ⊆ facts) (h : t ∈ (FirstTable.of g).first x) :
    (x, t) ∈ facts := by
  obtain ⟨hterm, hlead⟩ := (mem_first (lt_size_of_mem_first h)).mp h
  clear h
  induction hlead using Relation.ReflTransGen.head_induction_on with
  | refl => exact hown (by simpa [Grammar.ownTerminals] using hterm)
  | @head a y hy _ ih =>
    obtain ⟨body, hbody, hy⟩ := List.mem_flatMap.mp hy
    obtain ⟨p, hp, rfl, rfl⟩ := Grammar.mem_bodiesOf.mp hbody
    by_cases hself : y = p.lhs
    · exact hself ▸ ih
    · have hrule := Grammar.mem_firstRules.mpr ⟨p, hp, y, hy, hself, rfl⟩
      exact hclosed _ hrule (mem_takeOver.mpr ⟨rfl, ih⟩)

theorem exists_sweeps_first : ∃ found, Sweeps (g.firstRules g.nullable) g.ownTerminals found ∧
    ∀ fact, fact ∈ found ↔ fact.2 ∈ (FirstTable.of g).first fact.1 := by
  have hbound : ∀ fact : Nat × Nat, fact.2 ∈ (FirstTable.of g).first fact.1 →
      fact ∈ Finset.range g.symbols.size ×ˢ Finset.range g.symbols.size := by
    intro fact h
    have hx := lt_size_of_mem_first h
    have ht := g.symbols.lt_size_of_isTerminal ((mem_first hx).mp h).1
    simp [hx, ht]
  refine exists_sweeps hbound (fun fact hfact => ?_) (fun rule hrule facts hfacts ⟨a, t⟩ hfact => ?_)
    fun facts hown hclosed fact hfact => mem_of_mem_first hown hclosed hfact
  · obtain ⟨t, ht, rfl⟩ := List.mem_map.mp (List.mem_toFinset.mp hfact)
    exact mem_first_terminal (g.symbols.mem_terminalIds.mp ht)
  · obtain ⟨p, hp, y, hy, -, rfl⟩ := Grammar.mem_firstRules.mp hrule
    obtain ⟨rfl, hmem⟩ := mem_takeOver.mp hfact
    exact mem_first_of_begins hp (begins_iff.mpr ⟨y, hy, hfacts _ hmem⟩)

/-- FIRST of a string has the terminals that it can be derived to begin with, and it is told to vanish when the empty
string is derived; so it is for each symbol alone. The sweeps that find the nullable symbols and the FIRST sets come to
an end, with just these. -/
theorem first_exact (g : Grammar) :
    (∀ xs, (∀ t, t ∈ g.firstOf (FirstTable.of g) xs ↔ g.symbols.isTerminal t ∧ ∃ w, g.Derives xs (t :: w)) ∧
      ((FirstTable.of g).vanishes xs ↔ g.Derives xs [])) ∧
    (∀ x, (∀ t, t ∈ (FirstTable.of g).first x ↔ g.symbols.isTerminal t ∧ ∃ w, g.Derives [x] (t :: w)) ∧
      ((FirstTable.of g).isNullable x ↔ g.Derives [x] [])) ∧
    (∃ found, Sweeps g.nullableRules ∅ found ∧ ∀ x, x ∈ found ↔ (FirstTable.of g).isNullable x) ∧
    ∃ found, Sweeps (g.firstRules g.nullable) g.ownTerminals found ∧
      ∀ x t, (x, t) ∈ found ↔ t ∈ (FirstTable.of g).first x := by
  refine ⟨fun xs => ⟨fun t => ?strings, vanishes_iff⟩, fun x => ⟨fun t => ?symbols, ?vanishing⟩, ?nullable, ?first⟩
  case strings =>
    rw [mem_firstOf, begins_iff_derives]
    exact and_iff_right_of_imp And.left
  case symbols => rw [← begins_singleton, begins_iff_derives]
  case vanishing =>
    rw [← vanishes_iff]
    simp [vanishes]
  case nullable =>
    obtain ⟨found, hfound, hmem⟩ := g.exists_sweeps_nullable
    exact ⟨found, hfound, fun x => (hmem x).trans List.contains_iff_mem.symm⟩
  case first =>
    obtain ⟨found, hfound, hmem⟩ := exists_sweeps_first
    exact ⟨found, hfound, fun x t => hmem (x, t)⟩

end FirstTable

end ShiftReduce
