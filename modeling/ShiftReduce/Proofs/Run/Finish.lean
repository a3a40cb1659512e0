import ShiftReduce.Proofs.Run.Steps
import ShiftReduce.Run.Finish

/-!
# Finished runs

A finished run is what some number of steps leads to, and it is done (`finish_eq_ok`). A run has no end exactly if all
numbers of steps can be taken and none of them is enough (`finishFrom_eq_none`).
-/

namespace ShiftReduce

namespace Parser

variable {p : Parser} {n : Nat} {r r' : Run} {es before : List Event}

theorem finishFrom_of_steps (h : p.steps n r = .ok (r', es)) (hdone : r'.phase.isDone) (before : List Event) :
    p.finishFrom r before = some (.ok (r', before.reverse ++ es)) := by
  induction n generalizing r es before with
  | zero =>
    obtain ⟨rfl, rfl⟩ := Prod.mk.inj (Except.ok.inj h)
    rw [finishFrom, step_of_isDone hdone]
    simp [hdone]
  | succ n ih =>
    rw [Nat.add_comm] at h
    obtain ⟨r₁, es₁, es₂, h₁, h₂, rfl⟩ := Machine.steps_add_eq_ok.mp h
    obtain ⟨_, _, _, h₀, hs, rfl⟩ := Machine.steps_succ_eq_ok.mp h₁
    obtain ⟨rfl, rfl⟩ := Prod.mk.inj (Except.ok.inj h₀)
    rw [finishFrom, hs]
    by_cases hdone₁ : r₁.phase.isDone
    · obtain ⟨rfl, rfl⟩ := Prod.mk.inj (Except.ok.inj ((steps_of_isDone hdone₁ n).symm.trans h₂))
      simp [hdone₁]
    · simp [hdone₁, ih h₂]

/-- What a run is finished with is what some steps lead to, a fault included. -/
inductive FinishedBy (p : Parser) (r : Run) (before : List Event) : Except Fault (Run × List Event) → Prop
  | done {n : Nat} {r' : Run} {es : List Event} (hdone : r'.phase.isDone) (h : p.steps n r = .ok (r', es)) :
      FinishedBy p r before (.ok (r', before.reverse ++ es))
  | fault {n : Nat} {fault : Fault} (h : p.steps n r = .error fault) : FinishedBy p r before (.error fault)

theorem finishedBy_of_finishFrom {result : Except Fault (Run × List Event)}
    (h : p.finishFrom r before = some result) : p.FinishedBy r before result := by
  refine finishFrom.partial_correctness p p.FinishedBy ?_ r before result h
  intro finishFrom ih r before result h
  cases hs : p.step r with
  | error fault =>
    simp only [hs, Option.some.injEq] at h
    obtain rfl := h
    have hfault : p.steps 1 r = .error fault := by simp [steps, Machine.steps, hs, bind, Except.bind]
    exact .fault hfault
  | ok o =>
    obtain ⟨r₁, es₁⟩ := o
    have hstep := Machine.steps_one hs
    simp only [hs] at h
    split at h
    · next hdone =>
      obtain rfl := Option.some.inj h
      rw [List.reverse_append, List.reverse_reverse]
      exact .done hdone hstep
    · cases ih _ _ _ h with
      | done hdone hlater =>
        rw [List.reverse_append, List.reverse_reverse, List.append_assoc]
        exact .done hdone (Machine.steps_trans hstep hlater)
      | @fault n fault hlater =>
        rw [steps] at hlater
        have hfault : p.steps (1 + n) r = .error fault := by
          simp [steps, Machine.steps_add, hstep, hlater, bind, Except.bind]
        exact .fault hfault

theorem finish_eq_ok : p.finish r = .ok (r', es) ↔ r'.phase.isDone ∧ ∃ n, p.steps n r = .ok (r', es) := by
  constructor
  · intro h
    cases hfrom : p.finishFrom r [] with
    | none => simp [finish, hfrom] at h
    | some result =>
      obtain rfl : result = .ok (r', es) := by simpa [finish, hfrom] using h
      cases finishedBy_of_finishFrom hfrom with
      | @done n _ _ hdone hsteps => exact ⟨hdone, n, hsteps⟩
  · rintro ⟨hdone, n, h⟩
    rw [finish, finishFrom_of_steps h hdone]
    rfl

theorem finish_of_steps (h : p.steps n r = .ok (r', es)) (hdone : r'.phase.isDone) : p.finish r = .ok (r', es) :=
  finish_eq_ok.mpr ⟨hdone, n, h⟩

theorem finishFrom_eq_none :
    p.finishFrom r before = none ↔ ∀ n, ∃ r' es, p.steps n r = .ok (r', es) ∧ ¬ r'.phase.isDone := by
  constructor
  · intro h n
    induction n generalizing r before with
    | zero =>
      refine ⟨r, [], rfl, fun hdone => ?_⟩
      rw [finishFrom_of_steps (n := 0) rfl hdone] at h
      cases h
    | succ n ih =>
      rw [finishFrom] at h
      cases hs : p.step r with
      | error fault => simp [hs] at h
      | ok o =>
        obtain ⟨r₁, es₁⟩ := o
        simp only [hs] at h
        split at h
        · cases h
        · obtain ⟨r', es, hsteps, hnd⟩ := ih h
          rw [Nat.add_comm]
          exact ⟨r', es₁ ++ es, Machine.steps_trans (Machine.steps_one hs) hsteps, hnd⟩
  · intro h
    cases hfrom : p.finishFrom r before with
    | none => rfl
    | some result =>
      cases finishedBy_of_finishFrom hfrom with
      | @done n r' es hdone hsteps =>
        obtain ⟨_, _, hsteps', hnd⟩ := h n
        obtain ⟨rfl, rfl⟩ := Prod.mk.inj (Except.ok.inj (hsteps.symm.trans hsteps'))
        exact absurd hdone hnd
      | @fault n fault hfault =>
        obtain ⟨_, _, hsteps, -⟩ := h n
        cases hfault.symm.trans hsteps

/-- What is computed of a run after some steps is computed of the finished run, if it is done by then. -/
theorem exists_finish_of_map_eq_ok {β : Type} {view : Run × List Event → β} {b : β}
    (h : (p.steps n r).map (fun o => (o.1.phase.isDone, view o)) = .ok (true, b)) :
    ∃ r' es, p.finish r = .ok (r', es) ∧ view (r', es) = b := by
  obtain ⟨r', es, hsteps, hview⟩ := exists_of_map_eq_ok h
  obtain ⟨hdone, hview⟩ := Prod.mk.inj hview
  exact ⟨r', es, finish_of_steps hsteps hdone, hview⟩

end Parser

end ShiftReduce
