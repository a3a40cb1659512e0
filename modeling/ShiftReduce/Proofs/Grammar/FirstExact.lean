import ShiftReduce.Proofs.Grammar.First

/-!
# FIRST sets have nothing else

Every symbol that is found to be nullable derives the empty string, and what FIRST says to begin a string begins one that
it derives. With what the search does not miss, both are exact (`FirstTable.vanishes_iff`, `FirstTable.begins_iff_derives`).
-/

namespace ShiftReduce

/-- What rounds keep holds when they end. -/
theorem settle_induction {P : List Nat → Prop} {f : List Nat → List Nat} (hf : ∀ xs, P xs → P (f xs)) {rounds : Nat}
    {xs : List Nat} (hxs : P xs) : P (settle f rounds xs) := by
  induction rounds generalizing xs with
  | zero => exact hxs
  | succ rounds ih =>
    rw [settle]
    split
    · exact hxs
    · exact ih (hf xs hxs)

theorem exists_of_mem_leading {nullable xs : List Nat} {x : Nat} (h : x ∈ leading nullable xs) :
    ∃ before rest, xs = before ++ x :: rest ∧ ∀ y ∈ before, y ∈ nullable := by
  induction xs with
  | nil => exact absurd h List.not_mem_nil
  | cons z xs ih =>
    rw [leading] at h
    split at h
    · next hz =>
      rcases List.mem_cons.mp h with rfl | h
      · exact ⟨[], xs, rfl, by simp⟩
      · obtain ⟨before, rest, rfl, hbefore⟩ := ih h
        refine ⟨z :: before, rest, rfl, fun y hy => ?_⟩
        rcases List.mem_cons.mp hy with rfl | hy
        · exact List.contains_iff_mem.mp hz
        · exact hbefore y hy
    · rw [List.mem_singleton.mp h]
      exact ⟨[], xs, rfl, by simp⟩

variable {g : Grammar} {x t : Nat} {xs w : List Nat}

namespace Grammar

/-- Where all symbols in front vanish, the rest is derived. -/
theorem Derives.drop_vanishing {before : List Nat} (h : ∀ y ∈ before, g.Derives [y] []) (rest : List Nat) :
    g.Derives (before ++ rest) rest := by
  induction before with
  | nil => exact .refl _
  | cons y before ih =>
    have hfront : g.Derives ([y] ++ (before ++ rest)) ([] ++ (before ++ rest)) :=
      (h y List.mem_cons_self).append_right _
    exact hfront.trans (ih fun z hz => h z (List.mem_cons_of_mem _ hz))

theorem derives_nil_of_mem_nullable : ∀ a ∈ g.nullable, g.Derives [a] [] := by
  refine settle_induction (P := fun found => ∀ a ∈ found, g.Derives [a] []) (fun found hfound a ha => ?_) (by simp)
  obtain ⟨-, p, hp, rfl, hrhs⟩ := mem_nullableRound.mp ha
  have hvanish := Derives.drop_vanishing (fun x hx => hfound x (hrhs x hx)) []
  rw [List.append_nil] at hvanish
  exact (Derives.of_production hp).trans hvanish

/-- What is found to be nullable can vanish in front of the rest. -/
theorem derives_of_nullable {before : List Nat} (h : ∀ y ∈ before, y ∈ g.nullable) (rest : List Nat) :
    g.Derives (before ++ rest) rest :=
  .drop_vanishing (fun y hy => derives_nil_of_mem_nullable y (h y hy)) rest

end Grammar

namespace FirstTable

/-- A string vanishes exactly when it derives the empty one. -/
theorem vanishes_iff : (FirstTable.of g).vanishes xs ↔ g.Derives xs [] := by
  constructor
  · intro h
    have hall : ∀ x ∈ xs, x ∈ g.nullable := by simpa [vanishes, isNullable, FirstTable.of] using h
    simpa using Grammar.derives_of_nullable hall []
  · exact fun h => vanishes_of_yields (Grammar.yields_of_derives h .nil)

theorem exists_derives_of_leads (h : Leads (opening g) x t) : ∃ w, g.Derives [x] (t :: w) := by
  induction h with
  | refl => exact ⟨[], .refl _⟩
  | @tail y z _ hz ih =>
    obtain ⟨w, hw⟩ := ih
    obtain ⟨body, hbody, hz⟩ := List.mem_flatMap.mp hz
    obtain ⟨p, hp, rfl, rfl⟩ := Grammar.mem_bodiesOf.mp hbody
    obtain ⟨before, rest, hrhs, hbefore⟩ := exists_of_mem_leading hz
    have hstep : g.Derives (p.lhs :: w) (p.rhs ++ w) := (Grammar.Derives.of_production hp).append_right w
    have hvanish : g.Derives (p.rhs ++ w) (z :: (rest ++ w)) := by
      rw [hrhs, List.append_assoc]
      exact Grammar.derives_of_nullable hbefore _
    exact ⟨rest ++ w, hw.trans (hstep.trans hvanish)⟩

theorem lt_size_of_mem_first (h : t ∈ (FirstTable.of g).first x) : x < g.symbols.size := by
  refine Decidable.byContradiction fun hx => ?_
  have hnone : (FirstTable.of g).sets[x]? = none := by
    simpa [FirstTable.of] using Nat.not_lt.mp hx
  rw [first, hnone] at h
  exact List.not_mem_nil h

theorem exists_derives_of_mem_first (h : t ∈ (FirstTable.of g).first x) :
    g.symbols.isTerminal t ∧ ∃ w, g.Derives [x] (t :: w) := by
  obtain ⟨ht, hlead⟩ := (mem_first (lt_size_of_mem_first h)).mp h
  exact ⟨ht, exists_derives_of_leads hlead⟩

/-- A terminal begins a string exactly when the string derives one with the terminal in front. -/
theorem begins_iff_derives : (FirstTable.of g).begins t xs ↔ g.symbols.isTerminal t ∧ ∃ w, g.Derives xs (t :: w) := by
  constructor
  · intro h
    obtain ⟨x, hx, ht⟩ := begins_iff.mp h
    obtain ⟨hterm, w, hw⟩ := exists_derives_of_mem_first ht
    obtain ⟨before, rest, rfl, hbefore⟩ := exists_of_mem_leading hx
    exact ⟨hterm, w ++ rest, (Grammar.derives_of_nullable hbefore _).trans (hw.append_right rest)⟩
  · rintro ⟨hterm, w, hw⟩
    induction hw using Relation.ReflTransGen.head_induction_on with
    | refl => exact begins_cons.mpr (.inl (mem_first_terminal hterm))
    | head hstep _ ih =>
      obtain ⟨p, hp, l, r, rfl, rfl⟩ := hstep
      exact begins_contract hp ih

end FirstTable

end ShiftReduce
