import ShiftReduce.Proofs.Reach

/-!
# Searches told as lists of nodes that wait

Two ways to search a graph node by node. `Drains` marks a node when it is first seen and lets it wait; `exists_drains`
says that the waiting nodes run out, and `Drains.mem_iff` that just the nodes which the seeds lead to are marked then.
`LeadsBack` looks for a way back to one node and marks a node when it is looked at; `exists_leadsBack` says that it comes
to a verdict, and that the verdict is right.
-/

namespace ShiftReduce

variable {α : Type}

/-- However new nodes join those that wait, no others do, and none that leads on is left out. -/
structure Joins (next : α → List α) (join : List α → List α → List α) : Prop where
  subset : ∀ rest new, join rest new ⊆ rest ++ new
  kept : ∀ rest new, ∀ x ∈ rest ++ new, x ∈ join rest new ∨ next x = []
  length_le : ∀ rest new, (join rest new).length ≤ rest.length + new.length

variable {next : α → List α} {join : List α → List α → List α} {nodes marked waiting seen found : List α}

theorem joins_append : Joins next (· ++ ·) where
  subset _ _ := List.Subset.refl _
  kept _ _ _ hx := .inl hx
  length_le _ _ := Nat.le_of_eq List.length_append

section

variable [DecidableEq α]

/-- The first node that waits is taken off, and its successors that are not marked yet are marked and join those that
wait. From `marked` and `waiting` on, the search ends with the marked nodes `found`. -/
inductive Drains (next : α → List α) (join : List α → List α → List α) : List α → List α → List α → Prop
  | empty {marked : List α} : Drains next join marked [] marked
  | take {x : α} {marked rest found : List α}
      (h : Drains next join (marked ++ fresh next [x] marked) (join rest (fresh next [x] marked)) found) :
      Drains next join marked (x :: rest) found

theorem exists_drains (hjoin : Joins next join) (hnodes : ∀ a, next a ⊆ nodes) (hnodup : marked.Nodup)
    (hmarked : marked ⊆ nodes) : ∃ found, Drains next join marked waiting found := by
  -- a node that is taken off makes place for those that are marked in its stead
  induction hn : nodes.length - marked.length + waiting.length using Nat.strongRecOn generalizing marked waiting with
  | ind n ih =>
    rcases waiting with - | ⟨x, rest⟩
    · exact ⟨marked, .empty⟩
    · have hnew : ∀ b ∈ fresh next [x] marked, b ∈ next x ∧ b ∉ marked := by simp [mem_fresh]
      have hnodup' : (marked ++ fresh next [x] marked).Nodup :=
        List.nodup_append.mpr ⟨hnodup, nodup_distinct, fun a ha b hb e => (hnew b hb).2 (e ▸ ha)⟩
      have hmarked' : marked ++ fresh next [x] marked ⊆ nodes :=
        List.append_subset.mpr ⟨hmarked, fun b hb => hnodes x (hnew b hb).1⟩
      have hle := List.Nodup.length_le_of_subset hnodup' hmarked'
      have hlen := hjoin.length_le rest (fresh next [x] marked)
      have hless : nodes.length - (marked ++ fresh next [x] marked).length
          + (join rest (fresh next [x] marked)).length < n := by
        rw [List.length_append] at hle ⊢
        rw [List.length_cons] at hn
        omega
      obtain ⟨found, hfound⟩ := ih _ hless hnodup' hmarked' rfl
      exact ⟨found, .take hfound⟩

namespace Drains

variable {b : α}

theorem subset (h : Drains next join marked waiting found) : marked ⊆ found := by
  induction h with
  | empty => exact List.Subset.refl _
  | take _ ih =>
    intro a ha
    exact ih (List.mem_append_left _ ha)

theorem exists_leads (h : Drains next join marked waiting found) (hjoin : Joins next join) (hwaiting : waiting ⊆ marked)
    (hb : b ∈ found) : ∃ a ∈ marked, Leads next a b := by
  induction h with
  | empty => exact ⟨b, hb, .refl⟩
  | @take x marked rest found _ ih =>
    have hrest : rest ⊆ marked := fun a ha => hwaiting (List.mem_cons_of_mem _ ha)
    have hjoined : join rest (fresh next [x] marked) ⊆ marked ++ fresh next [x] marked := by
      intro a ha
      rcases List.mem_append.mp (hjoin.subset _ _ ha) with ha | ha
      · exact List.mem_append_left _ (hrest ha)
      · exact List.mem_append_right _ ha
    obtain ⟨a, ha, hab⟩ := ih hjoined hb
    rcases List.mem_append.mp ha with ha | ha
    · exact ⟨a, ha, hab⟩
    · obtain ⟨⟨c, hc, hca⟩, -⟩ := mem_fresh.mp ha
      obtain rfl := List.mem_singleton.mp hc
      exact ⟨c, hwaiting List.mem_cons_self, (Leads.tail .refl hca).trans hab⟩

/-- The successors of a marked node are marked as well, unless it still waits; in the end nothing waits. -/
theorem closed (h : Drains next join marked waiting found) (hjoin : Joins next join)
    (hdone : ∀ a ∈ marked, a ∉ waiting → next a ⊆ marked) : ∀ a ∈ found, next a ⊆ found := by
  induction h with
  | empty =>
    intro a ha
    exact hdone a ha (by simp)
  | @take x marked rest found _ ih =>
    refine ih fun a ha hwait b hb => ?_
    -- a node that does not wait now was done before, leads nowhere, or is the one taken off
    by_cases hx : a = x
    · by_cases hbm : b ∈ marked
      · exact List.mem_append_left _ hbm
      · exact List.mem_append_right _ (mem_fresh.mpr ⟨⟨a, List.mem_singleton.mpr hx, hb⟩, hbm⟩)
    have hjoined : a ∉ rest ++ fresh next [x] marked := by
      intro hmem
      rcases hjoin.kept _ _ a hmem with h | h
      · exact hwait h
      · simp [h] at hb
    rw [List.mem_append, not_or] at hjoined
    have ham := (List.mem_append.mp ha).resolve_right hjoined.2
    have hout : a ∉ x :: rest := fun hmem => (List.mem_cons.mp hmem).elim hx hjoined.1
    exact List.mem_append_left _ (hdone a ham hout hb)

/-- A search from seeds ends with what they lead to. -/
theorem mem_iff (h : Drains next join marked marked found) (hjoin : Joins next join) :
    b ∈ found ↔ ∃ a ∈ marked, Leads next a b := by
  constructor
  · exact h.exists_leads hjoin (List.Subset.refl _)
  · rintro ⟨a, ha, hab⟩
    exact hab.mem (h.closed hjoin fun a ha hout => absurd ha hout) (h.subset ha)

end Drains

end

/-- The way back to `origin` is looked for from the nodes of a stack. The top is taken off: it is `origin`, or it was
seen already, or its successors are put on the stack, the last of them on top. -/
inductive LeadsBack (next : α → List α) (origin : α) : List α → List α → Bool → Prop
  | spent {seen : List α} : LeadsBack next origin seen [] false
  | back {seen rest : List α} : LeadsBack next origin seen (origin :: rest) true
  | known {x : α} {seen rest : List α} {verdict : Bool} (hx : x ≠ origin) (hseen : x ∈ seen)
      (h : LeadsBack next origin seen rest verdict) : LeadsBack next origin seen (x :: rest) verdict
  | visit {x : α} {seen rest : List α} {verdict : Bool} (hx : x ≠ origin) (hseen : x ∉ seen)
      (h : LeadsBack next origin (x :: seen) ((next x).reverse ++ rest) verdict) :
      LeadsBack next origin seen (x :: rest) verdict

variable {origin x : α} {verdict : Bool}

/-- A way from a seen node to one that is not seen leads through a node that waits. -/
theorem exists_leads_of_seen (hopen : ∀ a ∈ seen, ∀ b ∈ next a, b ∈ seen ∨ b ∈ waiting) (hx : x ∈ seen)
    (horigin : origin ∉ seen) (h : Leads next x origin) : ∃ a ∈ waiting, Leads next a origin := by
  induction h using Relation.ReflTransGen.head_induction_on with
  | refl => exact absurd hx horigin
  | @head a b hb h ih =>
    rcases hopen a hx b hb with hb | hb
    · exact ih hb
    · exact ⟨b, hb, h⟩

theorem exists_leadsBack (hnodes : ∀ a, next a ⊆ nodes) (hnodup : seen.Nodup) (hseen : seen ⊆ nodes)
    (hwaiting : waiting ⊆ nodes) : ∃ verdict, LeadsBack next origin seen waiting verdict := by
  -- nodes that are seen again shorten the stack, and only so many can be seen for the first time
  induction hn : nodes.length - seen.length using Nat.strongRecOn generalizing seen waiting with
  | ind n ih =>
    induction waiting with
    | nil => exact ⟨false, .spent⟩
    | cons x rest ihrest =>
      obtain ⟨hx, hrest⟩ := List.cons_subset.mp hwaiting
      by_cases hback : x = origin
      · exact ⟨true, hback ▸ .back⟩
      by_cases hknown : x ∈ seen
      · obtain ⟨verdict, h⟩ := ihrest hrest
        exact ⟨verdict, .known hback hknown h⟩
      · have hnodup' : (x :: seen).Nodup := List.nodup_cons.mpr ⟨hknown, hnodup⟩
        have hseen' : x :: seen ⊆ nodes := List.cons_subset.mpr ⟨hx, hseen⟩
        have hstack : (next x).reverse ++ rest ⊆ nodes :=
          List.append_subset.mpr ⟨fun b hb => hnodes x (List.mem_reverse.mp hb), hrest⟩
        have hle := List.Nodup.length_le_of_subset hnodup' hseen'
        rw [List.length_cons] at hle
        obtain ⟨verdict, h⟩ := ih _ (by rw [List.length_cons]; omega) hnodup' hseen' hstack rfl
        exact ⟨verdict, .visit hback hknown h⟩

namespace LeadsBack

/-- The verdict says whether a node that waits leads to the origin, as long as the nodes that were seen lead to nothing
else than these and those that wait. -/
theorem verdict_iff (h : LeadsBack next origin seen waiting verdict) (horigin : origin ∉ seen)
    (hopen : ∀ a ∈ seen, ∀ b ∈ next a, b ∈ seen ∨ b ∈ waiting) :
    verdict = true ↔ ∃ a ∈ waiting, Leads next a origin := by
  induction h with
  | spent => simp
  | back => exact iff_of_true rfl ⟨origin, List.mem_cons_self, .refl⟩
  | @known x seen rest verdict hx hseen _ ih =>
    have hopen' : ∀ a ∈ seen, ∀ b ∈ next a, b ∈ seen ∨ b ∈ rest := by
      intro a ha b hb
      rcases hopen a ha b hb with hb | hb
      · exact .inl hb
      rcases List.mem_cons.mp hb with rfl | hb
      · exact .inl hseen
      · exact .inr hb
    rw [ih horigin hopen']
    constructor
    · rintro ⟨a, ha, hlead⟩
      exact ⟨a, List.mem_cons_of_mem _ ha, hlead⟩
    · rintro ⟨a, ha, hlead⟩
      rcases List.mem_cons.mp ha with rfl | ha
      · exact exists_leads_of_seen hopen' hseen horigin hlead
      · exact ⟨a, ha, hlead⟩
  | @visit x seen rest verdict hx hseen _ ih =>
    have horigin' : origin ∉ x :: seen := by simp [hx.symm, horigin]
    have hopen' : ∀ a ∈ x :: seen, ∀ b ∈ next a, b ∈ x :: seen ∨ b ∈ (next x).reverse ++ rest := by
      simp only [List.mem_cons, List.mem_append, List.mem_reverse]
      grind
    rw [ih horigin' hopen']
    constructor
    · rintro ⟨a, ha, hlead⟩
      rcases List.mem_append.mp ha with ha | ha
      · exact ⟨x, List.mem_cons_self, (Leads.tail .refl (List.mem_reverse.mp ha)).trans hlead⟩
      · exact ⟨a, List.mem_cons_of_mem _ ha, hlead⟩
    · rintro ⟨a, ha, hlead⟩
      rcases List.mem_cons.mp ha with rfl | ha
      · rcases hlead.cases_head with rfl | ⟨b, hb, hlead⟩
        · exact absurd rfl hx
        · exact ⟨b, List.mem_append_left _ (List.mem_reverse.mpr hb), hlead⟩
      · exact ⟨a, List.mem_append_right _ ha, hlead⟩

end LeadsBack

end ShiftReduce
