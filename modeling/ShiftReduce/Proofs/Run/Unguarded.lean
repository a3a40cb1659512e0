import ShiftReduce.Proofs.Run.Cycle

/-!
# The machine without a guard

`Parser.stepUnguarded` decides and reduces as a step does, and never looks at the stacks it has made before: no reduce
is stopped. `steps_guarded` says what the guard stops. A run that it rejects would reduce for ever on the same token,
or it has made two different stacks that are not told apart, and these may well be on the way to an end
(`steps_guarded_vanishing`).
-/

namespace ShiftReduce

open Event

namespace Parser

variable (p : Parser)

/-- A reduce as it is made without a look at the stacks before it. -/
def reduceUnguarded (r : Run) (production : Nat) : Except Fault (Run × List Event) := do
  let needed ← p.tables.length production
  let head ← p.tables.head production
  let available ← r.stack.available
  if available < needed then
    return r.enter (.rejected (.stackUnderflow production needed available)) []
  else if p.completes r head needed then
    let r := { r with stack := r.stack.lowest, phase := .accepted }
    return (r, [r.event .accept])
  else
    let top ← r.stack.peek
    let popped := { r with stack := ← r.stack.drop needed }
    let below ← popped.stack.peek
    match ← p.tables.goto.lookup below head with
    | none => return popped.enter (p.strand r top below head) []
    | some target =>
      let r := popped.push target
      return r.enter (← p.decide r) [r.event (.reduce production)]

/-- A step of the machine that decides and reduces in the same way, and has no guard. -/
def stepUnguarded (r : Run) : Except Fault (Run × List Event) :=
  match r.phase with
  | .reducing production => p.reduceUnguarded r production
  | _ => p.step r

variable {p : Parser} {r r' f f' : Run} {n : Nat} {es : List Event} {s : TokenStream}

/-- What a run is without its memory, and what it has recorded. -/
def view (o : Run × List Event) : Run × List Event :=
  (o.1.forget, o.2)

theorem decide_congr (hs : f.stack = r.stack) (hc : f.current = r.current) : p.decide f = p.decide r := by
  simp only [decide, Run.noAction, hs, hc]

theorem view_reduce (hpos : 0 < p.tables.stateCount) (r : Run) (q : Nat) :
    (p.reduce r.forget q).map view = (p.reduceUnguarded r q).map view := by
  have hstack : r.forget.stack = r.stack := rfl
  rw [reduce, reduceUnguarded, hstack]
  cases p.tables.length q with
  | error => rfl
  | ok needed =>
  cases p.tables.head q with
  | error => rfl
  | ok head =>
  cases havailable : r.stack.available with
  | error => rfl
  | ok available =>
  obtain ⟨hdepth, rfl⟩ := Stack.available_eq_ok.mp havailable
  change Except.map view (if r.stack.height < needed then _ else if p.completes r head needed then _ else _) =
    Except.map view (if r.stack.height < needed then _ else if p.completes r head needed then _ else _)
  split
  · rfl
  next hle =>
  split
  · rfl
  cases r.stack.peek with
  | error => rfl
  | ok top =>
  cases hdrop : r.stack.drop needed with
  | error => rfl
  | ok stack =>
  obtain ⟨-, rfl⟩ := Stack.drop_eq_ok.mp hdrop
  simp only [bind, Except.bind]
  cases (r.stack.pop needed).peek with
  | error => rfl
  | ok below =>
  simp only
  cases p.tables.goto.lookup below head with
  | error => rfl
  | ok target =>
  cases target with
  | none =>
    have hstrand : p.strand r.forget top below head = p.strand r top below head := rfl
    simp only [hstrand, Run.enter_eq]
    rfl
  | some m =>
    have hlt : needed < r.stack.depth := by
      rw [Stack.height] at hle
      omega
    have hfree := Run.not_isCycling_forget (r := r) (m := m) hpos hlt
    have hdecide : p.decide ((r.forget.replace needed m).mark m) = p.decide ((r.pop needed).push m) := decide_congr rfl rfl
    change Except.map view (p.proceed (r.forget.pop needed) q m) = _
    rw [proceed]
    change Except.map view (if (r.forget.replace needed m).isCycling p.tables.stateCount m then _ else
      p.decide ((r.forget.replace needed m).mark m) >>= _) = _
    rw [if_neg hfree, hdecide]
    change _ = Except.map view (p.decide ((r.pop needed).push m) >>= _)
    cases p.decide ((r.pop needed).push m) with
    | error => rfl
    | ok phase =>
      simp only [Run.enter_eq, bind, Except.bind]
      rfl

theorem view_stepFreely (hpos : 0 < p.tables.stateCount) (r : Run) :
    (p.stepFreely r).map view = (p.stepUnguarded r).map view := by
  rw [stepFreely, stepUnguarded, step]
  have hforget : r.forget.phase = r.phase := rfl
  rw [hforget]
  cases hphase : r.phase with
  | reducing q => exact view_reduce hpos r q
  | reading =>
    simp only [step, hphase]
    rfl
  | shifting m =>
    simp only [step, hphase]
    rfl
  | accepted =>
    simp only [step, hphase]
    rfl
  | rejected why =>
    simp only [step, hphase]
    rfl

theorem exists_of_map_view {o : Except Fault (Run × List Event)} (h : o.map view = .ok (r, es)) :
    ∃ f, o = .ok (f, es) ∧ f.forget = r := by
  obtain ⟨f, es', hf, heq⟩ := exists_of_map_eq_ok h
  obtain ⟨hforget, rfl⟩ := Prod.mk.inj heq
  exact ⟨f, hf, hforget⟩

theorem follows_stepUnguarded (hpos : 0 < p.tables.stateCount) : Machine.Follows p.stepFreely p.stepUnguarded := by
  intro r f r' es hf hr
  apply exists_of_map_view
  rw [← view_stepFreely hpos, stepFreely_congr hf, hr]
  rfl

theorem follows_stepFreely_of_unguarded (hpos : 0 < p.tables.stateCount) :
    Machine.Follows p.stepUnguarded p.stepFreely := by
  intro r f r' es hf hr
  apply exists_of_map_view
  rw [stepFreely_congr hf, view_stepFreely hpos, hr]
  rfl

/-- The guard stops a run that makes two stacks that it does not tell apart. -/
theorem not_confuses (ht : p.tables.Total) (hpos : 0 < p.tables.stateCount)
    (h : p.steps n (Run.start s) = .ok (r, es)) (hdone : r.phase.isDone)
    (hne : ∀ n q x, r.phase ≠ .rejected (.reduceCycle n q x)) : ¬ Machine.Confuses p.stepFreely (Run.start s) := by
  rintro ⟨i, j, r₁, r', r₂, es₁, later, e, tail, hr₁, hlast, hr', hall, hstep, he, hdepth, htop, -⟩
  obtain ⟨b₁, hb₁, hforget₁, -⟩ := exists_steps_of_freely ht hpos h hdone hne hr₁
  obtain ⟨b', hb', -, -⟩ := exists_steps_of_freely ht hpos h hdone hne (Machine.steps_trans hr₁ hr')
  obtain ⟨b₂, hb₂, hforget₂, hne₂⟩ :=
    exists_steps_of_freely ht hpos h hdone hne (Machine.steps_succ (Machine.steps_trans hr₁ hr') hstep)
  -- the second stack is made by the step from `b'`, where the first one is marked
  obtain ⟨_, _, es₂, hb₁', hlater, heq⟩ := Machine.steps_add_eq_ok.mp hb'
  obtain ⟨rfl, rfl⟩ := Prod.mk.inj (Except.ok.inj (hb₁.symm.trans hb₁'))
  obtain rfl := List.append_cancel_left heq
  obtain ⟨_, _, es₃, hb'', hstep', heq⟩ := Machine.steps_succ_eq_ok.mp hb₂
  obtain ⟨rfl, rfl⟩ := Prod.mk.inj (Except.ok.inj (hb'.symm.trans hb''))
  obtain rfl := List.append_cancel_left heq
  obtain ⟨hreading, hseen⟩ := seen_of_steps hb₁ hlast
  have hmarked := (seen_mono hlater hreading hall).2.1 _ _ hseen
  rcases (effect_of_step hstep').of_isReduce rfl he with ⟨m, q, x, hcycle⟩ | ⟨-, -, hnew⟩
  · exact hne₂ m q x hcycle
  · rw [← (Run.eq_of_forget hforget₂).1, hdepth, htop, (Run.eq_of_forget hforget₁).1] at hnew
    exact hnew hmarked

/-- The guard tells stacks by their depth and the state on top. What it stops would reduce for ever on the same token,
unless two stacks that differ were taken for one another. So a run that ends without the guard ends with it in the same
way, if there are no two such stacks; if there are, it is stopped. -/
theorem steps_guarded (p : Parser) (hp : p.tables.Consistent) (s : TokenStream) :
    (∀ n r es, p.steps n (Run.start s) = .ok (r, es) → (∃ m q x, r.phase = .rejected (.reduceCycle m q x)) →
      ∃ k f fs, Machine.steps p.stepUnguarded k (Run.start s) = .ok (f, fs) ∧
        f.stack = r.stack ∧ f.current = r.current ∧ f.stream = r.stream ∧
        (Machine.Endless p.stepUnguarded f ∨ Machine.Confuses p.stepUnguarded (Run.start s))) ∧
    ∀ k f fs, Machine.steps p.stepUnguarded k (Run.start s) = .ok (f, fs) → f.phase.isDone →
      ∃ r es, p.steps k (Run.start s) = .ok (r, es) ∧
        (¬ Machine.Confuses p.stepUnguarded (Run.start s) ∧ r.phase = f.phase ∧ r.stack = f.stack ∧
          r.stream = f.stream ∧ es = fs ∨
        Machine.Confuses p.stepUnguarded (Run.start s) ∧ ∃ m q x, r.phase = .rejected (.reduceCycle m q x)) := by
  have hfits := Tables.consistent_iff_fits.mp hp
  have hpos : 0 < p.tables.stateCount := Nat.pos_of_ne_zero hfits.states
  have hto := follows_stepUnguarded hpos
  have hfrom := follows_stepFreely_of_unguarded hpos
  constructor
  · intro n r es h hcycle
    obtain ⟨k, fs, f, hf, hstack, hcur, hstream, hcases⟩ := stopped_of_steps hfits h hcycle
    obtain ⟨f', hf', hforget⟩ := hto.steps rfl hf
    obtain ⟨hstack', hcur', hstream', -⟩ := Run.eq_of_forget hforget
    exact ⟨k, f', fs, hf', hstack'.trans hstack, hcur'.trans hcur, hstream'.trans hstream,
      hcases.imp (hto.endless hforget) hto.confuses⟩
  · intro k f fs hf hdone
    obtain ⟨f', hf', hforget⟩ := hfrom.steps (f := Run.start s) rfl hf
    obtain ⟨hstack, hcur, hstream, hphase⟩ := Run.eq_of_forget hforget
    obtain ⟨r, es, h, -⟩ := exists_steps_total hfits.total (asked_start p.tables s) k
    refine ⟨r, es, h, ?_⟩
    by_cases hcycle : ∃ m q x, r.phase = .rejected (.reduceCycle m q x)
    · -- the free machine ends, so it does not reduce for ever
      obtain ⟨i, gs, g, hg, -, -, -, hend | hconfuses⟩ := stopped_of_steps hfits h hcycle
      · exact absurd (hphase ▸ hdone) (settles_stepFreely.not_isDone_of_endless hg hend hf')
      · exact .inr ⟨hto.confuses hconfuses, hcycle⟩
    · have hne : ∀ m q x, r.phase ≠ .rejected (.reduceCycle m q x) := fun m q x hr => hcycle ⟨m, q, x, hr⟩
      obtain ⟨g, hg, hgr⟩ := freely_of_steps hpos h hne
      obtain ⟨rfl, rfl⟩ := Prod.mk.inj (Except.ok.inj (hf'.symm.trans hg))
      obtain ⟨hstack', -, hstream', hphase'⟩ := Run.eq_of_forget hgr
      have hrdone : r.phase.isDone := by rwa [← hphase', hphase]
      refine .inl ⟨fun hconfuses => ?_, hphase'.symm.trans hphase, hstack'.symm.trans hstack,
        hstream'.symm.trans hstream, rfl⟩
      exact not_confuses hfits.total hpos h hrdone hne (hfrom.confuses hconfuses)

end Parser

/-- One `x` or one `y`, around which nothing is done any number of times: `S` is `S`, `x` or `y`. -/
def Grammar.circular : Grammar where
  symbols := ⟨["x", "y"], ["S"], by decide⟩
  productions := [⟨3, [3]⟩, ⟨3, [1]⟩, ⟨3, [2]⟩]
  start := 3
  start_nonterminal := by decide
  fits := fun p hp => Production.fits_of_fault? (by revert p; decide)
  headed := by decide

namespace Parser

/-- Before `y` it is reduced by `S` is `S` again and again. In nested brackets there is nothing to stop. -/
theorem steps_guarded_circular :
    ((Tables.of {} .circular).Consistent ∧ ∃ r es,
      (of {} false .circular).steps 5 (Run.start (.ofSymbols [1, 2])) = .ok (r, es) ∧
      r.phase = .rejected (.reduceCycle 3 0 2) ∧ ∃ k f fs,
        Machine.steps (of {} false .circular).stepUnguarded k (Run.start (.ofSymbols [1, 2])) = .ok (f, fs) ∧
        f.stack = r.stack ∧ (Machine.Endless (of {} false .circular).stepUnguarded f ∨
          Machine.Confuses (of {} false .circular).stepUnguarded (Run.start (.ofSymbols [1, 2])))) ∧
    ((Tables.of {} .nested).Consistent ∧ ∃ r es,
      (of {} false .nested).steps 7 (Run.start (.ofSymbols [1, 2])) = .ok (r, es) ∧ r.phase = .accepted ∧
      ¬ Machine.Confuses (of {} false .nested).stepUnguarded (Run.start (.ofSymbols [1, 2]))) := by
  constructor
  · have hp : (of {} false .circular).tables.Consistent := by decide +kernel
    have hrun : ((of {} false .circular).steps 5 (Run.start (.ofSymbols [1, 2]))).map (·.1.phase)
        = .ok (.rejected (.reduceCycle 3 0 2)) := by decide +kernel
    obtain ⟨r, es, h, hphase⟩ := exists_of_map_eq_ok hrun
    obtain ⟨k, f, fs, hf, hstack, -, -, hcases⟩ := (steps_guarded _ hp _).1 5 r es h ⟨_, _, _, hphase⟩
    exact ⟨hp, r, es, h, hphase, k, f, fs, hf, hstack, hcases⟩
  · have hp : (of {} false .nested).tables.Consistent := by decide +kernel
    have hfree : (Machine.steps (of {} false .nested).stepUnguarded 7 (Run.start (.ofSymbols [1, 2]))).map (·.1.phase)
        = .ok .accepted := by decide +kernel
    have hrun : ((of {} false .nested).steps 7 (Run.start (.ofSymbols [1, 2]))).map (·.1.phase)
        = .ok .accepted := by decide +kernel
    obtain ⟨f, fs, hf, hacc⟩ := exists_of_map_eq_ok hfree
    obtain ⟨r, es, h, hphase⟩ := exists_of_map_eq_ok hrun
    obtain ⟨r', es', h', hcases⟩ := (steps_guarded _ hp _).2 7 f fs hf (by rw [hacc]; rfl)
    obtain ⟨rfl, rfl⟩ := Prod.mk.inj (Except.ok.inj (h.symm.trans h'))
    rcases hcases with ⟨hnot, -⟩ | ⟨-, m, q, x, hcycle⟩
    · exact ⟨hp, r, es, h, hphase, hnot⟩
    · cases hphase.symm.trans hcycle

/-- Behind `y` the run reduces to the end of the sentence, if it is let. -/
theorem steps_guarded_vanishing : (Tables.of {} .vanishing).Consistent ∧
    (∃ r es, (of {} false .vanishing).parse (.ofSymbols [1]) = .ok (r, es) ∧
      r.phase = .rejected (.reduceCycle 5 4 endId)) ∧
    ∃ r es, Machine.steps (of {} false .vanishing).stepUnguarded 10 (Run.start (.ofSymbols [1])) = .ok (r, es) ∧
      r.phase = .accepted := by
  have hguarded : ((of {} false .vanishing).steps 8 (Run.start (.ofSymbols [1]))).map
      (fun o => (o.1.phase.isDone, o.1.phase)) = .ok (true, .rejected (.reduceCycle 5 4 endId)) := by decide +kernel
  have hrun : (Machine.steps (of {} false .vanishing).stepUnguarded 10 (Run.start (.ofSymbols [1]))).map (·.1.phase)
      = .ok .accepted := by decide +kernel
  exact ⟨by decide +kernel, exists_finish_of_map_eq_ok hguarded, exists_of_map_eq_ok hrun⟩

end Parser

end ShiftReduce
