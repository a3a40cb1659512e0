import Mathlib.Algebra.Group.Nat.Defs
import ShiftReduce.Proofs.Run.Step

/-!
# Many steps

`Parser.steps` takes a number of steps and keeps the events in order. Steps add up (`steps_add_eq_ok`), what
every step preserves holds after any number of them (`steps_induction`), and a run that is done stays as it is
(`steps_of_le`).
-/

namespace ShiftReduce

/-- A machine that may fail to give its next run. -/
abbrev Machine : Type :=
  Run → Except Fault (Run × List Event)

namespace Machine

/-- So many steps of a machine, and what they record. -/
def steps (next : Machine) : Nat → Run → Except Fault (Run × List Event)
  | 0, r => .ok (r, [])
  | n + 1, r => do
    let (r', events) ← steps next n r
    let (r'', later) ← next r'
    return (r'', events ++ later)

variable {next : Machine} {m n : Nat} {r r' r'' : Run} {es es' : List Event}

theorem steps_zero : next.steps 0 r = .ok (r, []) :=
  rfl

theorem chain_eq_ok {x : Except Fault (Run × List Event)} :
    (do let (r', events) ← x
        let (r'', later) ← next r'
        return (r'', events ++ later)) = .ok (r'', es) ↔
    ∃ r' es₁ es₂, x = .ok (r', es₁) ∧ next r' = .ok (r'', es₂) ∧ es = es₁ ++ es₂ := by
  constructor
  · intro h
    cases hx : x with
    | error f => simp [hx, bind, Except.bind] at h
    | ok o =>
      obtain ⟨r', es₁⟩ := o
      cases hs : next r' with
      | error f => simp [hx, hs, bind, Except.bind] at h
      | ok o' =>
        obtain ⟨r₂, es₂⟩ := o'
        simp only [hx, hs, bind, Except.bind, pure, Except.pure, Except.ok.injEq, Prod.mk.injEq] at h
        obtain ⟨rfl, rfl⟩ := h
        exact ⟨r', es₁, es₂, rfl, hs, rfl⟩
  · rintro ⟨r', es₁, es₂, rfl, hs, rfl⟩
    simp [hs, bind, Except.bind, pure, Except.pure]

theorem steps_succ_eq_ok : next.steps (n + 1) r = .ok (r'', es) ↔
    ∃ r' es₁ es₂, next.steps n r = .ok (r', es₁) ∧ next r' = .ok (r'', es₂) ∧ es = es₁ ++ es₂ :=
  chain_eq_ok

theorem steps_succ (h : next.steps n r = .ok (r', es)) (h' : next r' = .ok (r'', es')) :
    next.steps (n + 1) r = .ok (r'', es ++ es') :=
  steps_succ_eq_ok.mpr ⟨_, _, _, h, h', rfl⟩

theorem steps_one (h : next r = .ok (r', es)) : next.steps 1 r = .ok (r', es) :=
  steps_succ steps_zero h

theorem steps_add (m n : Nat) (r : Run) : next.steps (m + n) r = do
    let (r', events) ← next.steps m r
    let (r'', later) ← next.steps n r'
    return (r'', events ++ later) := by
  induction n with
  | zero =>
    rw [Nat.add_zero]
    cases next.steps m r with
    | error f => rfl
    | ok o => simp [steps, bind, Except.bind, pure, Except.pure]
  | succ n ih => simp [steps, ih]

theorem steps_add_eq_ok : next.steps (m + n) r = .ok (r'', es) ↔
    ∃ r' es₁ es₂, next.steps m r = .ok (r', es₁) ∧ next.steps n r' = .ok (r'', es₂) ∧ es = es₁ ++ es₂ := by
  rw [steps_add]
  exact chain_eq_ok

theorem steps_trans (h : next.steps m r = .ok (r', es)) (h' : next.steps n r' = .ok (r'', es')) :
    next.steps (m + n) r = .ok (r'', es ++ es') :=
  steps_add_eq_ok.mpr ⟨_, _, _, h, h', rfl⟩

theorem steps_induction {I : Run → List Event → Prop} (hinit : I r [])
    (hstep : ∀ r₁ r₂ es₁ es₂, I r₁ es₁ → next r₁ = .ok (r₂, es₂) → I r₂ (es₁ ++ es₂))
    (h : next.steps n r = .ok (r', es)) : I r' es := by
  induction n generalizing r' es with
  | zero =>
    obtain ⟨rfl, rfl⟩ := Prod.mk.inj (Except.ok.inj h)
    exact hinit
  | succ n ih =>
    obtain ⟨r₁, es₁, es₂, h₁, h₂, rfl⟩ := steps_succ_eq_ok.mp h
    exact hstep _ _ _ _ (ih h₁) h₂

/-- A machine that never fails where an invariant holds takes any number of steps. -/
theorem exists_steps {I : Run → List Event → Prop} (hinit : I r [])
    (hstep : ∀ r₁ r₂ es₁ es₂, I r₁ es₁ → next r₁ = .ok (r₂, es₂) → I r₂ (es₁ ++ es₂))
    (hok : ∀ r₁ es₁, I r₁ es₁ → ∃ r₂ es₂, next r₁ = .ok (r₂, es₂)) (n : Nat) :
    ∃ r' es, next.steps n r = .ok (r', es) ∧ I r' es := by
  induction n with
  | zero => exact ⟨r, [], rfl, hinit⟩
  | succ n ih =>
    obtain ⟨r₁, es₁, h₁, hi⟩ := ih
    obtain ⟨r₂, es₂, h₂⟩ := hok r₁ es₁ hi
    exact ⟨r₂, es₁ ++ es₂, steps_succ h₁ h₂, hstep _ _ _ _ hi h₂⟩

end Machine

/-- What is computed of a run that is given is computed of some run. -/
theorem exists_of_map_eq_ok {β : Type} {x : Except Fault (Run × List Event)} {view : Run × List Event → β} {b : β}
    (h : x.map view = .ok b) : ∃ r es, x = .ok (r, es) ∧ view (r, es) = b := by
  cases x with
  | error f => cases h
  | ok o => exact ⟨o.1, o.2, rfl, Except.ok.inj h⟩

namespace Parser

variable {p : Parser} {m n : Nat} {r r' : Run} {es : List Event}

def steps (p : Parser) (n : Nat) (r : Run) : Except Fault (Run × List Event) :=
  Machine.steps p.step n r

theorem step_of_isDone (h : r.phase.isDone) : p.step r = .ok (r, []) :=
  step_of_effect (.done h)

theorem steps_of_isDone (h : r.phase.isDone) (n : Nat) : p.steps n r = .ok (r, []) := by
  induction n with
  | zero => rfl
  | succ n ih => exact Machine.steps_succ ih (step_of_isDone h)

/-- Steps that are taken when the run is done change nothing. -/
theorem steps_of_le (h : p.steps m r = .ok (r', es)) (hdone : r'.phase.isDone) (hle : m ≤ n) :
    p.steps n r = .ok (r', es) := by
  obtain ⟨k, rfl⟩ := Nat.exists_eq_add_of_le hle
  have hstay := Machine.steps_trans h (steps_of_isDone hdone k)
  rwa [List.append_nil] at hstay

end Parser

end ShiftReduce
