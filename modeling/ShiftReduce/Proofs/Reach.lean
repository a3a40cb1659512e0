import Mathlib.Logic.Relation
import ShiftReduce.Proofs.Distinct
import ShiftReduce.Reach

/-!
# What a search reaches

`mem_reach`: over a finite list of nodes the rounds of `reach` find exactly the nodes that some seed leads
to. No node is listed twice and a round that finds anything makes the list longer, so the rounds are never
used up before the list is closed.
-/

namespace ShiftReduce

variable {α : Type}

/-- One node leads to another along the successors. -/
def Leads (next : α → List α) : α → α → Prop :=
  Relation.ReflTransGen fun a b => b ∈ next a

theorem Leads.tail {next : α → List α} {a b c : α} (h : Leads next a b) (hc : c ∈ next b) :
    Leads next a c :=
  Relation.ReflTransGen.tail h hc

theorem Leads.trans {next : α → List α} {a b c : α} (h : Leads next a b) (h' : Leads next b c) :
    Leads next a c :=
  Relation.ReflTransGen.trans h h'

theorem Leads.mem {next : α → List α} {closed : List α} (hc : ∀ a ∈ closed, next a ⊆ closed) {a b : α}
    (h : Leads next a b) (ha : a ∈ closed) : b ∈ closed := by
  induction h with
  | refl => exact ha
  | tail _ hb ih => exact hc _ ih hb

theorem Leads.mono {next next' : α → List α} (hnext : ∀ a, next a ⊆ next' a) {a b : α} (h : Leads next a b) :
    Leads next' a b :=
  Relation.ReflTransGen.mono (fun a _ hb => hnext a hb) a b h

variable [DecidableEq α]

section

variable {next : α → List α} {frontier seen nodes : List α}

theorem mem_fresh {b : α} : b ∈ fresh next frontier seen ↔ (∃ a ∈ frontier, b ∈ next a) ∧ b ∉ seen := by
  simp [fresh]

theorem subset_reachFrom {rounds : Nat} : seen ⊆ reachFrom next rounds frontier seen := by
  induction rounds generalizing frontier seen with
  | zero => exact List.Subset.refl _
  | succ rounds ih =>
    rw [reachFrom]
    split
    · exact List.Subset.refl _
    · exact fun a ha => ih (List.mem_append_left _ ha)

/-- Whatever holds of the nodes seen and of the successors of any node it holds of is true of all nodes
found. -/
theorem reachFrom_induction {P : α → Prop} (hnext : ∀ a b, P a → b ∈ next a → P b) {rounds : Nat}
    (hf : ∀ a ∈ frontier, P a) (hs : ∀ a ∈ seen, P a) : ∀ a ∈ reachFrom next rounds frontier seen, P a := by
  induction rounds generalizing frontier seen with
  | zero => exact hs
  | succ rounds ih =>
    rw [reachFrom]
    split
    · exact hs
    · have hnew : ∀ b ∈ fresh next frontier seen, P b := fun b hb => by
        obtain ⟨⟨a, ha, hab⟩, -⟩ := mem_fresh.mp hb
        exact hnext a b (hf a ha) hab
      refine ih hnew fun b hb => ?_
      rcases List.mem_append.mp hb with hb | hb
      · exact hs b hb
      · exact hnew b hb

/-- The search ends with a closed list: the nodes that are not in the frontier have their successors
listed, and the rounds left are more than the nodes left. -/
theorem reachFrom_closed {rounds : Nat} (hnodes : ∀ a, next a ⊆ nodes) (hnodup : seen.Nodup)
    (hsub : seen ⊆ nodes) (hdone : ∀ a ∈ seen, a ∉ frontier → next a ⊆ seen)
    (hrounds : frontier = [] ∨ nodes.length < seen.length + rounds) :
    ∀ a ∈ reachFrom next rounds frontier seen, next a ⊆ reachFrom next rounds frontier seen := by
  induction rounds generalizing frontier seen with
  | zero =>
    rcases hrounds with rfl | hlt
    · exact fun a ha => hdone a ha List.not_mem_nil
    · have := List.Nodup.length_le_of_subset hnodup hsub
      omega
  | succ rounds ih =>
    rw [reachFrom]
    split
    · next hnil =>
      intro a ha b hb
      by_cases haf : a ∈ frontier
      · refine Decidable.byContradiction fun hbs => ?_
        have hb : b ∈ fresh next frontier seen := mem_fresh.mpr ⟨⟨a, haf, hb⟩, hbs⟩
        rw [hnil] at hb
        exact List.not_mem_nil hb
      · exact hdone a ha haf hb
    · next hne =>
      have hnew : 0 < (fresh next frontier seen).length := List.length_pos_iff.mpr (by simpa using hne)
      refine ih ?_ ?_ ?_ ?_
      · refine List.nodup_append.mpr ⟨hnodup, nodup_distinct, fun a ha b hb e => ?_⟩
        exact (mem_fresh.mp hb).2 (e ▸ ha)
      · intro b hb
        rcases List.mem_append.mp hb with hb | hb
        · exact hsub hb
        · obtain ⟨⟨a, -, hab⟩, -⟩ := mem_fresh.mp hb
          exact hnodes a hab
      · intro a ha haf b hb
        have ha : a ∈ seen := (List.mem_append.mp ha).resolve_right haf
        by_cases hbs : b ∈ seen
        · exact List.mem_append_left _ hbs
        by_cases ha' : a ∈ frontier
        · exact List.mem_append_right _ (mem_fresh.mpr ⟨⟨a, ha', hb⟩, hbs⟩)
        · exact absurd (hdone a ha ha' hb) hbs
      · right
        rcases hrounds with rfl | hlt
        · simp [fresh, distinct, distinctFrom] at hnew
        · rw [List.length_append]
          omega

end

/-- The search finds exactly what the seeds lead to. -/
theorem mem_reach {next : α → List α} {nodes seeds : List α} {size : Nat} (hsize : nodes.length ≤ size)
    (hseeds : seeds ⊆ nodes) (hnext : ∀ a, next a ⊆ nodes) {b : α} :
    b ∈ reach next size seeds ↔ ∃ a ∈ seeds, Leads next a b := by
  constructor
  · have hseed : ∀ a ∈ distinct seeds, ∃ s ∈ seeds, Leads next s a := fun a ha =>
      ⟨a, mem_distinct.mp ha, .refl⟩
    exact reachFrom_induction (P := fun b => ∃ a ∈ seeds, Leads next a b)
      (fun a b ⟨s, hs, ha⟩ hb => ⟨s, hs, ha.tail hb⟩) hseed hseed b
  · rintro ⟨a, ha, hab⟩
    have hrounds : distinct seeds = [] ∨ nodes.length < (distinct seeds).length + size := by
      rcases seeds with - | ⟨s, seeds⟩
      · exact .inl rfl
      · have : 0 < (distinct (s :: seeds)).length := by simp [distinct, distinctFrom]
        exact .inr (by omega)
    have hclosed : ∀ a ∈ reach next size seeds, next a ⊆ reach next size seeds :=
      reachFrom_closed hnext nodup_distinct (fun a ha => hseeds (mem_distinct.mp ha))
        (fun a ha h => absurd ha h) hrounds
    exact hab.mem hclosed (subset_reachFrom (mem_distinct.mpr ha))

end ShiftReduce
