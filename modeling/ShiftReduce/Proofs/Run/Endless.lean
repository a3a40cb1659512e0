import ShiftReduce.Proofs.Run.Free

/-!
# Runs that reduce for ever

A run that comes back, by reduces alone, to where it can go the same way again never ends: it is enough that each
time it takes one step at least (`Machine.reducesAt_of_progress`). All that it does is reduce, and its token stays
unread and unshifted (`Parser.endless_of_reducesAt`).
-/

namespace ShiftReduce

open Event

namespace Machine

variable {next : Machine} {r r' f : Run} {k n : Nat} {es : List Event}

/-- After so many steps the run is to reduce. -/
def ReducesAt (next : Machine) (n : Nat) (r : Run) : Prop :=
  ∃ r' es q, next.steps n r = .ok (r', es) ∧ r'.phase = .reducing q

/-- The run reduces for ever: after any number of steps it has done nothing else, each step a reduce on the same
token, and it is to reduce again. -/
def Endless (next : Machine) (r : Run) : Prop :=
  ∀ n, ∃ r' es q, next.steps n r = .ok (r', es) ∧ es.length = n ∧ es.all isReduce ∧ r'.phase = .reducing q ∧
    r'.current = r.current ∧ r'.stream = r.stream

/-- Two reduces make stacks that differ but have the same depth and the same state on top, and there are only
reduces between them. -/
def Confuses (next : Machine) (r₀ : Run) : Prop :=
  ∃ i j r₁ r r₂ es later e tail, next.steps i r₀ = .ok (r₁, es) ∧ es.getLast?.any isReduce ∧
    next.steps j r₁ = .ok (r, later) ∧ later.all isReduce ∧ next r = .ok (r₂, e :: tail) ∧ e.isReduce ∧
    r₂.stack.depth = r₁.stack.depth ∧ r₂.stack.top = r₁.stack.top ∧ r₂.stack ≠ r₁.stack

theorem reducesAt_add (h : next.steps k r = .ok (r', es)) : next.ReducesAt (k + n) r ↔ next.ReducesAt n r' := by
  constructor
  · rintro ⟨f, es', q, hf, hq⟩
    obtain ⟨r'', es₁, es₂, h₁, h₂, -⟩ := steps_add_eq_ok.mp hf
    obtain ⟨rfl, -⟩ := Prod.mk.inj (Except.ok.inj (h.symm.trans h₁))
    exact ⟨f, es₂, q, h₂, hq⟩
  · rintro ⟨f, es', q, hf, hq⟩
    exact ⟨f, _, q, steps_trans h hf, hq⟩

/-- A run that, from where it is, always comes to such a place again by reduces reduces for ever. -/
theorem reducesAt_of_progress {P : Run → Prop} (hP : ∀ r, P r → ∃ k r' es, next.steps (k + 1) r = .ok (r', es) ∧
    (∀ i ≤ k, next.ReducesAt i r) ∧ P r') (hr : P r) (n : Nat) : next.ReducesAt n r := by
  induction n using Nat.strongRecOn generalizing r with
  | ind n ih =>
    obtain ⟨k, r', es, h, hbefore, hr'⟩ := hP r hr
    rcases Nat.lt_or_ge k n with hlt | hle
    · obtain ⟨m, rfl⟩ := Nat.exists_eq_add_of_le hlt
      exact (reducesAt_add h).mpr (ih m (by omega) hr')
    · exact hbefore n hle

/-- Whatever the one machine does, the other does, too, from a run that differs in what it has seen. -/
def Follows (next next' : Machine) : Prop :=
  ∀ r f r' es, f.forget = r.forget → next r = .ok (r', es) → ∃ f', next' f = .ok (f', es) ∧ f'.forget = r'.forget

namespace Follows

variable {next' : Machine}

theorem steps (h : Follows next next') (hf : f.forget = r.forget) (hr : next.steps n r = .ok (r', es)) :
    ∃ f', next'.steps n f = .ok (f', es) ∧ f'.forget = r'.forget := by
  induction n generalizing r' es with
  | zero =>
    obtain ⟨rfl, rfl⟩ := Prod.mk.inj (Except.ok.inj hr)
    exact ⟨f, rfl, hf⟩
  | succ n ih =>
    obtain ⟨r₁, es₁, es₂, h₁, h₂, rfl⟩ := steps_succ_eq_ok.mp hr
    obtain ⟨f₁, hf₁, hforget₁⟩ := ih h₁
    obtain ⟨f₂, hf₂, hforget₂⟩ := h r₁ f₁ r' es₂ hforget₁ h₂
    exact ⟨f₂, steps_succ hf₁ hf₂, hforget₂⟩

theorem reducesAt (h : Follows next next') (hf : f.forget = r.forget) (hr : next.ReducesAt n r) :
    next'.ReducesAt n f := by
  obtain ⟨r', es, q, hr', hq⟩ := hr
  obtain ⟨f', hf', hforget⟩ := h.steps hf hr'
  exact ⟨f', es, q, hf', (Run.eq_of_forget hforget).2.2.2.trans hq⟩

theorem endless (h : Follows next next') (hf : f.forget = r.forget) (hr : next.Endless r) : next'.Endless f := by
  intro n
  obtain ⟨r', es, q, hr', hlen, hall, hq, hcur, hstream⟩ := hr n
  obtain ⟨f', hf', hforget⟩ := h.steps hf hr'
  obtain ⟨-, hcur₁, hstream₁, -⟩ := Run.eq_of_forget hf
  obtain ⟨-, hcur₂, hstream₂, hphase⟩ := Run.eq_of_forget hforget
  exact ⟨f', es, q, hf', hlen, hall, hphase.trans hq, by rw [hcur₂, hcur, hcur₁], by rw [hstream₂, hstream, hstream₁]⟩

theorem confuses {r₀ : Run} (h : Follows next next') (hr : next.Confuses r₀) : next'.Confuses r₀ := by
  obtain ⟨i, j, r₁, r, r₂, es, later, e, tail, hr₁, hlast, hr, hall, hstep, he, hdepth, htop, hne⟩ := hr
  obtain ⟨f₁, hf₁, hforget₁⟩ := h.steps (f := r₀) rfl hr₁
  obtain ⟨f, hf, hforget⟩ := h.steps hforget₁ hr
  obtain ⟨f₂, hf₂, hforget₂⟩ := h _ _ _ _ hforget hstep
  have hstack₁ := (Run.eq_of_forget hforget₁).1
  have hstack₂ := (Run.eq_of_forget hforget₂).1
  rw [← hstack₁, ← hstack₂] at hdepth htop hne
  exact ⟨i, j, f₁, f, f₂, es, later, e, tail, hf₁, hlast, hf, hall, hf₂, he, hdepth, htop, hne⟩

end Follows

/-- A run that comes to reduce for ever has never been done. -/
theorem Settles.not_isDone_of_endless (hs : Settles next) (h : next.steps k r = .ok (r', es)) (hend : next.Endless r')
    {fs : List Event} (hf : next.steps n r = .ok (f, fs)) : ¬ f.phase.isDone := by
  intro hdone
  obtain ⟨g, gs, q, hg, -, -, hq, -⟩ := hend n
  have hlate := hs.phase_eq_of_le hf hdone (steps_trans h hg) (Nat.le_add_left n k)
  rw [← hlate.1, hq] at hdone
  exact absurd hdone Bool.false_ne_true

end Machine

theorem Stack.ext_states {s t : Stack} (h : s.states = t.states) : s = t := by
  obtain ⟨states, depth, rfl⟩ := s
  obtain ⟨states', depth', rfl⟩ := t
  obtain rfl : states = states' := h
  rfl

theorem Run.forget_eq {r f : Run} (hstack : f.stack = r.stack) (hcur : f.current = r.current)
    (hstream : f.stream = r.stream) (hphase : f.phase = r.phase) : f.forget = r.forget := by
  rw [forget, forget, hstack, hcur, hstream, hphase]

namespace Parser

open Machine

variable {p : Parser} {r r' f f' : Run} {n q q' : Nat} {es later : List Event}

theorem Decides.unique {phase phase' : Phase} (hd : p.Decides r phase) (hd' : p.Decides r phase') : phase = phase' := by
  cases hd <;> cases hd' <;> simp_all

theorem stepFreely_congr (h : f.forget = r.forget) : p.stepFreely f = p.stepFreely r := by
  rw [stepFreely, stepFreely, h]

/-- What was forgotten is not missed by the free machine. -/
theorem follows_stepFreely : Follows p.stepFreely p.stepFreely :=
  fun _ _ r' _ hf hr => ⟨r', (stepFreely_congr hf).trans hr, rfl⟩

/-- A step from a reduce to a reduce is one that is taken, on the same token. -/
theorem isReduce_of_reducing (h : p.stepFreely r = .ok (r', es)) (hq : r.phase = .reducing q)
    (hq' : r'.phase = .reducing q') :
    (∃ e, es = [e] ∧ e.isReduce) ∧ r'.current = r.current ∧ r'.stream = r.stream := by
  cases effect_of_step h with
  | read hphase => cases hphase.symm.trans hq
  | shift hphase => cases hphase.symm.trans hq
  | @strand q₁ needed head =>
    obtain ⟨why, hwhy, -⟩ := p.exists_strand_eq r.forget r.forget.stack.top (r.forget.pop needed).stack.top head
    cases hwhy.symm.trans hq'
  | @reduce q₁ needed head m phase _ _ _ _ _ =>
    obtain rfl : phase = .reducing q' := hq'
    exact ⟨⟨_, rfl, rfl⟩, rfl, rfl⟩
  | done hdone =>
    have hdone : r.phase.isDone := hdone
    rw [hq] at hdone
    exact absurd hdone Bool.false_ne_true
  | _ => cases hq'

theorem endless_of_reducesAt (h : ∀ n, ReducesAt p.stepFreely n r) : Endless p.stepFreely r := by
  intro n
  induction n with
  | zero =>
    obtain ⟨r', es, q, hr', hq⟩ := h 0
    obtain ⟨rfl, rfl⟩ := Prod.mk.inj (Except.ok.inj hr')
    exact ⟨r, [], q, rfl, rfl, rfl, hq, rfl, rfl⟩
  | succ n ih =>
    obtain ⟨r₁, es₁, q, h₁, hlen, hall, hq, hcur, hstream⟩ := ih
    obtain ⟨r₂, es, q', h₂, hq'⟩ := h (n + 1)
    obtain ⟨r₁', es₁', es₂, h₁', hstep, rfl⟩ := steps_succ_eq_ok.mp h₂
    obtain ⟨rfl, rfl⟩ := Prod.mk.inj (Except.ok.inj (h₁.symm.trans h₁'))
    obtain ⟨⟨e, rfl, he⟩, hcur₂, hstream₂⟩ := isReduce_of_reducing hstep hq hq'
    refine ⟨r₂, _, q', h₂, by simp [hlen], ?_, hq', hcur₂.trans hcur, hstream₂.trans hstream⟩
    rw [List.all_append, hall]
    simpa using he

/-- While a run reduces it acts on the token that it had. -/
theorem keeps_token (hr : r.phase ≠ .reading) (h : Machine.steps p.stepFreely n r = .ok (r', later))
    (hall : later.all isReduce) : r'.phase ≠ .reading ∧ r'.current = r.current ∧ r'.stream = r.stream := by
  refine steps_induction (I := fun r' later => later.all isReduce →
    r'.phase ≠ .reading ∧ r'.current = r.current ∧ r'.stream = r.stream) ?_ ?_ h hall
  · exact fun _ => ⟨hr, rfl, rfl⟩
  intro r₁ r₂ es₁ es₂ ih hs hall
  rw [List.all_append, Bool.and_eq_true] at hall
  obtain ⟨hne, hcur, hstream⟩ := ih hall.1
  cases effect_of_step hs with
  | read hphase => exact absurd hphase hne
  | reduce _ _ _ _ hd => exact ⟨hd.ne_reading, hcur, hstream⟩
  | done => exact ⟨hne, hcur, hstream⟩
  | _ => exact absurd hall.2 (by simp [Run.event, isReduce])

/-- Reduces lead from one reduce to another, if nothing is read before the first. -/
theorem reducesAt_of_steps (hr : r.phase ≠ .reading) (h : Machine.steps p.stepFreely n r = .ok (f, later))
    (hall : later.all isReduce) (hq : f.phase = .reducing q) : ∀ i ≤ n, ReducesAt p.stepFreely i r := by
  induction n generalizing f later q with
  | zero =>
    intro i hi
    obtain rfl := Nat.le_zero.mp hi
    exact ⟨f, later, q, h, hq⟩
  | succ n ih =>
    obtain ⟨r₁, es₁, es₂, h₁, hs, rfl⟩ := steps_succ_eq_ok.mp h
    rw [List.all_append, Bool.and_eq_true] at hall
    obtain ⟨q₁, hq₁⟩ : ∃ q₁, r₁.phase = .reducing q₁ := by
      cases effect_of_step hs with
      | read hphase => exact absurd hphase (keeps_token hr h₁ hall.1).1
      | @strand q₁ needed head =>
        obtain ⟨why, hwhy, -⟩ := p.exists_strand_eq r₁.forget r₁.forget.stack.top (r₁.forget.pop needed).stack.top head
        cases hwhy.symm.trans hq
      | reduce ht => exact ⟨_, ht.phase⟩
      | done => exact ⟨q, hq⟩
      | _ => cases hq
    intro i hi
    rcases Nat.lt_or_ge n i with hlt | hle
    · obtain rfl := Nat.le_antisymm hi hlt
      exact ⟨f, _, q, h, hq⟩
    · exact ih h₁ hall.1 hq₁ i hle

/-- A run that comes back by reduces does so again and again. -/
theorem endless_of_return (hr : r.phase ≠ .reading) (h : Machine.steps p.stepFreely n r = .ok (f, later))
    (hall : later.all isReduce) (hq : f.phase = .reducing q) (hf : p.stepFreely f = .ok (f', es))
    (hforget : f'.forget = r.forget) : Endless p.stepFreely f' := by
  have hreduces := reducesAt_of_steps hr h hall hq
  refine endless_of_reducesAt (reducesAt_of_progress (P := fun a => a.forget = r.forget) (fun a ha => ?_) hforget)
  obtain ⟨b, hb, hbf⟩ := follows_stepFreely.steps ha (steps_succ h hf)
  exact ⟨n, b, _, hb, fun i hi => follows_stepFreely.reducesAt ha (hreduces i hi), hbf.trans hforget⟩

/-- A run that has just reduced has decided on the state on top. -/
theorem decides_of_getLast? {r₀ : Run} (h : Machine.steps p.stepFreely n r₀ = .ok (r, es))
    (hlast : es.getLast?.any isReduce) : p.Decides r r.phase := by
  refine steps_induction (I := fun r es => es.getLast?.any isReduce → p.Decides r r.phase) (by simp) ?_ h hlast
  intro r₁ r₂ es₁ es₂ ih hs hlast
  cases effect_of_step hs with
  | @read phase hphase _ hd =>
    cases phase with
    | rejected why => exact absurd hlast (by simp [Run.closing, Run.event, isReduce])
    | _ => exact absurd hphase (ih (by simpa [Run.closing] using hlast)).ne_reading
  | reduce _ _ _ _ hd => exact hd.congr rfl rfl
  | done => exact (ih (by simpa using hlast)).congr rfl rfl
  | _ => exact absurd hlast (by simp [Run.event, isReduce])

end Parser

end ShiftReduce
