import ShiftReduce.Distinct

/-!
# First occurrences as a list

The first occurrences of a list have its elements, each of them once. They are the list itself if nothing repeats in
it (`distinct_of_nodup`), what is left of it when later occurrences are erased (`distinct_eq_eraseDups`), and a map that
keeps the elements apart can be applied before or after (`map_distinct`).
-/

namespace ShiftReduce

variable {α : Type} [DecidableEq α]

theorem mem_distinctFrom {seen as : List α} {a : α} :
    a ∈ distinctFrom seen as ↔ a ∈ as ∧ a ∉ seen := by
  induction as generalizing seen with
  | nil => simp [distinctFrom]
  | cons b as ih =>
    by_cases h : b ∈ seen
    · simp only [distinctFrom, h, if_true, ih, List.mem_cons]
      grind
    · simp only [distinctFrom, h, if_false, List.mem_cons, ih]
      grind

theorem nodup_distinctFrom {seen as : List α} : (distinctFrom seen as).Nodup := by
  induction as generalizing seen with
  | nil => simp [distinctFrom]
  | cons b as ih =>
    by_cases h : b ∈ seen
    · simpa [distinctFrom, h] using ih
    · simp only [distinctFrom, h, if_false, List.nodup_cons, mem_distinctFrom]
      exact ⟨by simp, ih⟩

@[simp] theorem mem_distinct {as : List α} {a : α} : a ∈ distinct as ↔ a ∈ as := by
  simp [distinct, mem_distinctFrom]

theorem nodup_distinct {as : List α} : (distinct as).Nodup :=
  nodup_distinctFrom

theorem distinctFrom_congr {seen seen' as : List α} (h : ∀ a, a ∈ seen ↔ a ∈ seen') :
    distinctFrom seen as = distinctFrom seen' as := by
  induction as generalizing seen seen' with
  | nil => rfl
  | cons a as ih =>
    have hcons : ∀ b, b ∈ a :: seen ↔ b ∈ a :: seen' := by simp [h]
    simp only [distinctFrom, h a, ih h, ih hcons]

theorem distinctFrom_append {seen as bs : List α} (has : as.Nodup) (hseen : ∀ a ∈ as, a ∉ seen) :
    distinctFrom seen (as ++ bs) = as ++ distinctFrom (as ++ seen) bs := by
  induction as generalizing seen with
  | nil => rfl
  | cons a as ih =>
    obtain ⟨ha, has⟩ := List.nodup_cons.mp has
    have hcons : ∀ b ∈ as, b ∉ a :: seen := by
      intro b hb hmem
      rcases List.mem_cons.mp hmem with rfl | hmem
      · exact ha hb
      · exact hseen b (List.mem_cons_of_mem _ hb) hmem
    rw [List.cons_append, distinctFrom, if_neg (hseen a List.mem_cons_self), ih has hcons, List.cons_append]
    congr 2
    exact distinctFrom_congr fun b => by simp [or_left_comm]

theorem distinct_of_nodup {as : List α} (h : as.Nodup) : distinct as = as := by
  have hwhole : distinctFrom [] (as ++ []) = as ++ distinctFrom (as ++ []) [] :=
    distinctFrom_append h fun _ _ => List.not_mem_nil
  rwa [List.append_nil, distinctFrom, List.append_nil] at hwhole

theorem distinctFrom_eq {seen as : List α} : distinctFrom seen as = (as.filter (· ∉ seen)).eraseDups := by
  induction as generalizing seen with
  | nil => rfl
  | cons a as ih =>
    by_cases h : a ∈ seen
    · simp [distinctFrom, h, ih]
    · have hrest : as.filter (· ∉ a :: seen) = (as.filter (· ∉ seen)).filter (fun b => !b == a) := by
        rw [List.filter_filter]
        refine List.filter_congr fun b _ => ?_
        by_cases hb : b = a <;> simp [hb]
      rw [distinctFrom, if_neg h, ih, hrest, List.filter_cons_of_pos (by simpa using h), List.eraseDups_cons]

/-- The first occurrences are what is left when the later ones are erased. -/
theorem distinct_eq_eraseDups (as : List α) : distinct as = as.eraseDups := by
  have hall : as.filter (· ∉ []) = as := by simp
  rw [distinct, distinctFrom_eq, hall]

theorem eraseDups_concat (as : List α) (a : α) :
    (as ++ [a]).eraseDups = if a ∈ as then as.eraseDups else as.eraseDups ++ [a] := by
  rw [List.eraseDups_append]
  by_cases h : a ∈ as <;> simp [List.removeAll, h, List.eraseDups_cons]

theorem map_distinctFrom {β : Type} [DecidableEq β] {f : α → β} {seen as : List α}
    (hf : ∀ a ∈ seen ++ as, ∀ b ∈ seen ++ as, f a = f b → a = b) :
    (distinctFrom seen as).map f = distinctFrom (seen.map f) (as.map f) := by
  induction as generalizing seen with
  | nil => rfl
  | cons a as ih =>
    have hseen : f a ∈ seen.map f ↔ a ∈ seen := by
      refine ⟨fun h => ?_, List.mem_map_of_mem⟩
      obtain ⟨b, hb, heq⟩ := List.mem_map.mp h
      obtain rfl := hf b (by simp [hb]) a (by simp) heq
      exact hb
    have hfewer : ∀ b, b ∈ seen ++ as → b ∈ seen ++ a :: as := by grind
    have hmoved : ∀ b, b ∈ a :: seen ++ as → b ∈ seen ++ a :: as := by grind
    simp only [distinctFrom, List.map_cons, hseen]
    split
    · exact ih fun b hb c hc => hf b (hfewer b hb) c (hfewer c hc)
    · rw [List.map_cons, ih fun b hb c hc => hf b (hmoved b hb) c (hmoved c hc), List.map_cons]

theorem map_distinct {β : Type} [DecidableEq β] {f : α → β} {as : List α}
    (hf : ∀ a ∈ as, ∀ b ∈ as, f a = f b → a = b) : (distinct as).map f = distinct (as.map f) :=
  map_distinctFrom hf

end ShiftReduce
