import Mathlib.Data.Finset.Card

/-!
# Rules in sweeps

Facts are inferred by rules that are gone through in order, each adding to what is known by then; when a sweep through
all of them adds nothing, it was the last. `exists_sweeps`: if the facts to be found are finitely many, every rule keeps
to them, and no smaller set is kept by the rules, then the sweeps end and have found exactly these facts.
-/

namespace ShiftReduce

variable {α : Type} [DecidableEq α]

/-- What is inferred from the facts that are known. -/
abbrev Inference (α : Type) := Finset α → Finset α

/-- Every rule once, in order. -/
def sweep (rules : List (Inference α)) (known : Finset α) : Finset α :=
  rules.foldl (fun known rule => known ∪ rule known) known

/-- The sweeps from `known` on end with `found`. -/
inductive Sweeps (rules : List (Inference α)) : Finset α → Finset α → Prop
  | last {known : Finset α} (h : sweep rules known = known) : Sweeps rules known known
  | again {known found : Finset α} (h : sweep rules known ≠ known) (h' : Sweeps rules (sweep rules known) found) :
      Sweeps rules known found

variable {rules : List (Inference α)} {rule : Inference α} {known found bound : Finset α}

theorem sweep_cons : sweep (rule :: rules) known = sweep rules (known ∪ rule known) :=
  rfl

theorem subset_sweep : known ⊆ sweep rules known := by
  induction rules generalizing known with
  | nil => exact Finset.Subset.refl _
  | cons rule rules ih =>
    rw [sweep_cons]
    exact Finset.subset_union_left.trans ih

theorem sweep_subset (hrules : ∀ rule ∈ rules, ∀ facts, facts ⊆ bound → rule facts ⊆ bound) (hknown : known ⊆ bound) :
    sweep rules known ⊆ bound := by
  induction rules generalizing known with
  | nil => exact hknown
  | cons rule rules ih =>
    rw [sweep_cons]
    refine ih (fun r hr => hrules r (List.mem_cons_of_mem _ hr)) ?_
    exact Finset.union_subset hknown (hrules rule List.mem_cons_self known hknown)

/-- Where a sweep adds nothing, no rule does. -/
theorem subset_of_sweep_eq (h : sweep rules known = known) : ∀ rule ∈ rules, rule known ⊆ known := by
  induction rules with
  | nil => simp
  | cons rule rules ih =>
    rw [sweep_cons] at h
    have hfirst : rule known ⊆ known := by
      have hsub : known ∪ rule known ⊆ sweep rules (known ∪ rule known) := subset_sweep
      rw [h] at hsub
      exact Finset.subset_union_right.trans hsub
    rw [Finset.union_eq_left.mpr hfirst] at h
    intro r hr
    rcases List.mem_cons.mp hr with rfl | hr
    · exact hfirst
    · exact ih h r hr

namespace Sweeps

theorem subset (h : Sweeps rules known found) : known ⊆ found := by
  induction h with
  | last => exact Finset.Subset.refl _
  | again _ _ ih => exact subset_sweep.trans ih

theorem closed (h : Sweeps rules known found) : ∀ rule ∈ rules, rule found ⊆ found := by
  induction h with
  | last h => exact subset_of_sweep_eq h
  | again _ _ ih => exact ih

theorem subset_bound (h : Sweeps rules known found)
    (hrules : ∀ rule ∈ rules, ∀ facts, facts ⊆ bound → rule facts ⊆ bound) (hknown : known ⊆ bound) :
    found ⊆ bound := by
  induction h with
  | last => exact hknown
  | again _ _ ih => exact ih (sweep_subset hrules hknown)

end Sweeps

/-- Within finitely many facts the sweeps come to an end: each but the last finds a new one. -/
theorem exists_sweeps_of_subset (hrules : ∀ rule ∈ rules, ∀ facts, facts ⊆ bound → rule facts ⊆ bound)
    (hknown : known ⊆ bound) : ∃ found, Sweeps rules known found := by
  induction hn : bound.card - known.card using Nat.strongRecOn generalizing known with
  | ind n ih =>
    by_cases h : sweep rules known = known
    · exact ⟨known, .last h⟩
    · have hsweep := sweep_subset hrules hknown
      have hgrow : known ⊂ sweep rules known := Finset.ssubset_iff_subset_ne.mpr ⟨subset_sweep, fun e => h e.symm⟩
      have hlt := Finset.card_lt_card hgrow
      have hle := Finset.card_le_card hsweep
      obtain ⟨found, hfound⟩ := ih _ (by omega) hsweep rfl
      exact ⟨found, .again h hfound⟩

/-- The sweeps end with the facts that satisfy `P`, if these are the least that the rules keep. -/
theorem exists_sweeps {P : α → Prop} (hbound : ∀ x, P x → x ∈ bound) (hknown : ∀ x ∈ known, P x)
    (hrules : ∀ rule ∈ rules, ∀ facts, (∀ x ∈ facts, P x) → ∀ x ∈ rule facts, P x)
    (hleast : ∀ facts, known ⊆ facts → (∀ rule ∈ rules, rule facts ⊆ facts) → ∀ x, P x → x ∈ facts) :
    ∃ found, Sweeps rules known found ∧ ∀ x, x ∈ found ↔ P x := by
  classical
  have hsub : ∀ facts : Finset α, facts ⊆ bound.filter P ↔ ∀ x ∈ facts, P x := by
    intro facts
    simp only [Finset.subset_iff, Finset.mem_filter]
    exact ⟨fun h x hx => (h hx).2, fun h x hx => ⟨hbound x (h x hx), h x hx⟩⟩
  have hkeep : ∀ rule ∈ rules, ∀ facts, facts ⊆ bound.filter P → rule facts ⊆ bound.filter P := by
    intro rule hrule facts hfacts
    rw [hsub] at hfacts ⊢
    exact hrules rule hrule facts hfacts
  obtain ⟨found, hfound⟩ := exists_sweeps_of_subset hkeep ((hsub known).mpr hknown)
  have hsound := hfound.subset_bound hkeep ((hsub known).mpr hknown)
  refine ⟨found, hfound, fun x => ⟨fun hx => ?_, fun hx => ?_⟩⟩
  · exact (hsub found).mp hsound x hx
  · exact hleast found hfound.subset hfound.closed x hx

section

variable {ι τ : Type} [DecidableEq ι] [DecidableEq τ] {a b x : ι} {t : τ}

/-- What is known of `x` is inferred for `a`. -/
def takeOver (a x : ι) : Inference (ι × τ) :=
  fun known => (known.filter (·.1 = x)).image fun fact => (a, fact.2)

theorem mem_takeOver {known : Finset (ι × τ)} : (b, t) ∈ takeOver a x known ↔ b = a ∧ (x, t) ∈ known := by
  simp only [takeOver, Finset.mem_image, Finset.mem_filter, Prod.mk.injEq]
  constructor
  · rintro ⟨⟨y, s⟩, ⟨hknown, rfl⟩, rfl, rfl⟩
    exact ⟨rfl, hknown⟩
  · rintro ⟨rfl, hknown⟩
    exact ⟨(x, t), ⟨hknown, rfl⟩, rfl, rfl⟩

end

end ShiftReduce
