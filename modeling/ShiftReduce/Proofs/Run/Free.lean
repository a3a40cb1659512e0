import ShiftReduce.Proofs.Run.Termination

/-!
# The machine that never stops a cycle

A step taken freely forgets which stacks were seen before it is taken, so no reduce is stopped. What a parser
does before it stops a cycle is what its machine does freely (`freely_of_steps`).
-/

namespace ShiftReduce

namespace Machine

/-- A run that is done stays as it is and records nothing. -/
def Settles (next : Machine) : Prop :=
  ∀ r : Run, r.phase.isDone → ∃ r', next r = .ok (r', []) ∧ r'.phase = r.phase

variable {next : Machine} {m n : Nat} {r a b : Run} {es fs : List Event}

theorem Settles.steps (hs : Settles next) (h : r.phase.isDone) (n : Nat) :
    ∃ r', next.steps n r = .ok (r', []) ∧ r'.phase = r.phase := by
  induction n with
  | zero => exact ⟨r, rfl, rfl⟩
  | succ n ih =>
    obtain ⟨r₁, h₁, hp₁⟩ := ih
    obtain ⟨r₂, h₂, hp₂⟩ := hs r₁ (hp₁ ▸ h)
    exact ⟨r₂, steps_succ h₁ h₂, hp₂.trans hp₁⟩

theorem Settles.phase_eq_of_le (hs : Settles next) (ha : next.steps m r = .ok (a, es)) (hd : a.phase.isDone)
    (hb : next.steps n r = .ok (b, fs)) (hle : m ≤ n) : b.phase = a.phase ∧ fs = es := by
  obtain ⟨k, rfl⟩ := Nat.exists_eq_add_of_le hle
  obtain ⟨r', hr', hp⟩ := hs.steps hd k
  have hadd := steps_trans ha hr'
  rw [List.append_nil] at hadd
  obtain ⟨rfl, rfl⟩ := Prod.mk.inj (Except.ok.inj (hb.symm.trans hadd))
  exact ⟨hp, rfl⟩

theorem Settles.phase_eq (hs : Settles next) (ha : next.steps m r = .ok (a, es)) (hda : a.phase.isDone)
    (hb : next.steps n r = .ok (b, fs)) (hdb : b.phase.isDone) : a.phase = b.phase ∧ es = fs := by
  rcases Nat.le_total m n with hle | hle
  · obtain ⟨hp, he⟩ := hs.phase_eq_of_le ha hda hb hle
    exact ⟨hp.symm, he.symm⟩
  · exact hs.phase_eq_of_le hb hdb ha hle

/-- Some steps lead from one run to the other. -/
def Reaches (next : Machine) (r r' : Run) : Prop :=
  ∃ n es, next.steps n r = .ok (r', es)

theorem Reaches.refl {next : Machine} (r : Run) : Reaches next r r :=
  ⟨0, [], rfl⟩

theorem Reaches.head {next : Machine} {r r' r'' : Run} {es : List Event} (h : next r = .ok (r', es))
    (h' : Reaches next r' r'') : Reaches next r r'' := by
  obtain ⟨n, es', h'⟩ := h'
  exact ⟨1 + n, es ++ es', steps_trans (steps_one h) h'⟩

theorem Reaches.trans {next : Machine} {r r' r'' : Run} (h : Reaches next r r') (h' : Reaches next r' r'') :
    Reaches next r r'' := by
  obtain ⟨m, es, h⟩ := h
  obtain ⟨n, es', h'⟩ := h'
  exact ⟨m + n, es ++ es', steps_trans h h'⟩

end Machine

namespace Run

/-- The run as if its token had just been read. -/
def forget (r : Run) : Run :=
  { r with seen := .empty, readDepth := r.stack.depth }

theorem eq_of_forget {r f : Run} (h : f.forget = r.forget) :
    f.stack = r.stack ∧ f.current = r.current ∧ f.stream = r.stream ∧ f.phase = r.phase :=
  ⟨(mk.inj h).2.1, (mk.inj h).2.2.1, (mk.inj h).1, (mk.inj h).2.2.2.1⟩

theorem not_isCycling_forget {r : Run} {states needed m : Nat} (hpos : 0 < states)
    (hlt : needed < r.stack.depth) : ¬ (r.forget.replace needed m).isCycling states m := by
  rw [isCycling, Bool.or_eq_true, not_or, decide_eq_true_eq]
  refine ⟨?_, ?_⟩
  · show ¬ r.stack.depth + states < r.stack.depth - needed + 1
    omega
  · show ¬ Seen.empty.contains _ _
    simp

end Run

namespace Parser

variable {p : Parser} {n : Nat} {r r' f : Run} {es : List Event} {phase : Phase}

/-- A step of the machine that forgets what it has seen. -/
def stepFreely (p : Parser) (r : Run) : Except Fault (Run × List Event) :=
  p.step r.forget

theorem settles_step : Machine.Settles p.step :=
  fun r h => ⟨r, step_of_isDone h, rfl⟩

theorem settles_stepFreely : Machine.Settles p.stepFreely := fun r h =>
  ⟨r.forget, step_of_isDone (r := r.forget) h, rfl⟩

theorem Takes.forget {q needed head : Nat} (h : p.Takes r q needed head) : p.Takes r.forget q needed head :=
  ⟨h.phase, h.length, h.head, h.depth⟩

/-- A reduce is taken freely, whatever the run has seen. -/
theorem Takes.exists_stepFreely {q needed head m : Nat} (hpos : 0 < p.tables.stateCount)
    (ht : p.Takes r q needed head) (hc : ¬ p.completes r head needed)
    (hg : p.tables.goto.lookup (r.pop needed).stack.top head = .ok (some m))
    (hd : p.Decides (r.replace needed m) phase) :
    ∃ r' e tail, p.stepFreely r = .ok (r', e :: tail) ∧ r'.stack = (r.stack.pop needed).push m ∧
      r'.current = r.current ∧ r'.stream = r.stream ∧ p.Decides r' r'.phase ∧ e.isReduce := by
  have hfree := Run.not_isCycling_forget (r := r) (m := m) hpos ht.depth
  have hd' : p.Decides ((r.forget.replace needed m).mark m) phase := hd.congr rfl rfl
  exact ⟨_, _, _, step_of_effect (.reduce ht.forget hc hg hfree hd'), rfl, rfl, rfl, hd.congr rfl rfl, rfl⟩

/-- A step that does not stop a cycle is a free step. -/
theorem Effect.freely (hpos : 0 < p.tables.stateCount) (he : p.Effect r r' es)
    (hne : ∀ n q x, r'.phase ≠ .rejected (.reduceCycle n q x)) (hf : f.forget = r.forget) :
    ∃ f', p.stepFreely f = .ok (f', es) ∧ f'.forget = r'.forget := by
  rw [stepFreely, hf]
  cases he with
  | read h hs hd => exact ⟨_, step_of_effect (.read (r := r.forget) h hs (hd.congr rfl rfl)), rfl⟩
  | shift h => exact ⟨_, step_of_effect (.shift (r := r.forget) h), rfl⟩
  | underflow h hn hh hs hlt => exact ⟨_, step_of_effect (.underflow (r := r.forget) h hn hh hs hlt), rfl⟩
  | accept h hc => exact ⟨_, step_of_effect (.accept h.forget hc), rfl⟩
  | strand h hc hg => exact ⟨_, step_of_effect (.strand h.forget hc hg), rfl⟩
  | cycle => exact absurd rfl (hne _ _ _)
  | @reduce q needed head m phase h hc hg hcyc hd =>
    have hfree := Run.not_isCycling_forget (r := r) (m := m) hpos h.depth
    have hd' : p.Decides ((r.forget.replace needed m).mark m) phase := hd.congr rfl rfl
    exact ⟨_, step_of_effect (.reduce h.forget hc hg hfree hd'), rfl⟩
  | done h => exact ⟨_, step_of_effect (.done (r := r.forget) h), rfl⟩

theorem freely_of_steps (hpos : 0 < p.tables.stateCount) (h : p.steps n r = .ok (r', es))
    (hne : ∀ n q x, r'.phase ≠ .rejected (.reduceCycle n q x)) :
    ∃ f, Machine.steps p.stepFreely n r = .ok (f, es) ∧ f.forget = r'.forget := by
  induction n generalizing r' es with
  | zero =>
    obtain ⟨rfl, rfl⟩ := Prod.mk.inj (Except.ok.inj h)
    exact ⟨r, rfl, rfl⟩
  | succ n ih =>
    obtain ⟨r₁, es₁, es₂, h₁, hs, rfl⟩ := Machine.steps_succ_eq_ok.mp h
    have he := effect_of_step hs
    have hne₁ : ∀ n q x, r₁.phase ≠ .rejected (.reduceCycle n q x) := by
      intro n q x hp
      have hd : r₁.phase.isDone := by rw [hp]; rfl
      rw [step_of_isDone hd] at hs
      obtain ⟨rfl, -⟩ := Prod.mk.inj (Except.ok.inj hs)
      exact hne n q x hp
    obtain ⟨f₁, hf₁, hforget₁⟩ := ih h₁ hne₁
    obtain ⟨f, hf, hforget⟩ := he.freely hpos hne hforget₁
    exact ⟨f, Machine.steps_succ hf₁ hf, hforget⟩

/-- Taken freely, the run comes to be accepted. -/
def Succeeds (p : Parser) (r : Run) : Prop :=
  ∃ r', Machine.Reaches p.stepFreely r r' ∧ r'.phase = .accepted

theorem Succeeds.of_reaches (hr : Machine.Reaches p.stepFreely r r') (h : p.Succeeds r') : p.Succeeds r := by
  obtain ⟨a, ha, hacc⟩ := h
  exact ⟨a, hr.trans ha, hacc⟩

theorem Succeeds.phase_eq (h : p.Succeeds r) (hf : Machine.steps p.stepFreely n r = .ok (f, es))
    (hd : f.phase.isDone) : f.phase = .accepted := by
  obtain ⟨a, ⟨m, es', ha⟩, hacc⟩ := h
  exact (settles_stepFreely.phase_eq hf hd ha (by rw [hacc]; rfl)).1.trans hacc

/-- A rejection for anything but a cycle is one of the free machine, too. -/
theorem not_succeeds_of_rejected {why : Rejection} (hpos : 0 < p.tables.stateCount)
    (h : p.steps n r = .ok (r', es)) (hr : r'.phase = .rejected why)
    (hwhy : ∀ n q x, why ≠ .reduceCycle n q x) : ¬ p.Succeeds r := by
  intro hsucc
  have hne : ∀ n q x, r'.phase ≠ .rejected (.reduceCycle n q x) := by
    intro n q x hcycle
    exact hwhy n q x (Phase.rejected.inj (hr.symm.trans hcycle))
  obtain ⟨f, hf, hforget⟩ := freely_of_steps hpos h hne
  have hphase : f.phase = .rejected why := (Run.eq_of_forget hforget).2.2.2.trans hr
  have hacc := hsucc.phase_eq hf (by rw [hphase]; rfl)
  rw [hphase] at hacc
  cases hacc

end Parser

end ShiftReduce
