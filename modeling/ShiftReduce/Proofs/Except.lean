/-!
# Results that may be errors

What it means that a computation in steps gives a result: every step gives one (`bind_eq_ok`), and over a list of
arguments the results are those of the arguments in order (`mapM_eq_ok`).
-/

namespace ShiftReduce

variable {α β ε : Type}

theorem bind_eq_ok {x : Except ε α} {f : α → Except ε β} {b : β} : x >>= f = .ok b ↔ ∃ a, x = .ok a ∧ f a = .ok b := by
  cases x <;> simp [bind, Except.bind]

theorem mapM_eq_ok {f : α → Except ε β} {g : β → α} {P : β → Prop} (h : ∀ a b, f a = .ok b ↔ P b ∧ g b = a)
    {as : List α} {bs : List β} : as.mapM f = .ok bs ↔ (∀ b ∈ bs, P b) ∧ bs.map g = as := by
  induction as generalizing bs with
  | nil => cases bs <;> simp [pure, Except.pure]
  | cons a as ih =>
    simp only [List.mapM_cons, bind_eq_ok, h, ih, pure, Except.pure, Except.ok.injEq]
    constructor
    · rintro ⟨b, ⟨hb, rfl⟩, bs, ⟨hbs, rfl⟩, rfl⟩
      exact ⟨List.forall_mem_cons.mpr ⟨hb, hbs⟩, rfl⟩
    · rintro ⟨hall, hmap⟩
      cases bs with
      | nil => cases hmap
      | cons b bs =>
        obtain ⟨hb, hbs⟩ := List.forall_mem_cons.mp hall
        obtain ⟨rfl, rfl⟩ := List.cons_eq_cons.mp hmap
        exact ⟨b, ⟨hb, rfl⟩, bs, ⟨hbs, rfl⟩, rfl⟩

theorem exists_map_eq {f : α → β} {P : α → Prop} {bs : List β} (h : ∀ b ∈ bs, ∃ a, P a ∧ f a = b) :
    ∃ as : List α, (∀ a ∈ as, P a) ∧ as.map f = bs := by
  induction bs with
  | nil => exact ⟨[], by simp⟩
  | cons b bs ih =>
    obtain ⟨a, ha, rfl⟩ := h b List.mem_cons_self
    obtain ⟨as, has, rfl⟩ := ih fun b hb => h b (List.mem_cons_of_mem _ hb)
    exact ⟨a :: as, List.forall_mem_cons.mpr ⟨ha, has⟩, rfl⟩

end ShiftReduce
