import ShiftReduce.Grammar.Defects
import ShiftReduce.Proofs.Run.Bounds
import ShiftReduce.Proofs.Run.Climb
import ShiftReduce.Proofs.Run.Completeness

/-!
# When a cycle is stopped

A reduce is taken for one of a cycle when it makes a stack of a depth and with a state on top that another
reduce has made since the last read. Two such stacks may differ below, so this is met by sentences of
grammars that do not derive themselves, too. `Returns` says it of the machine that stops nothing, and
`parse_accepted_iff` says that nothing else keeps a sentence from being accepted.
-/

namespace ShiftReduce

open Event

namespace Parser

/-- Taken freely, the run makes two stacks of the same depth with the same state on top by reduces, and there
are only reduces between them. -/
def Returns (p : Parser) (r₀ : Run) : Prop :=
  ∃ m n r r' es later, Machine.steps p.stepFreely m r₀ = .ok (r, es) ∧ es.getLast?.any isReduce ∧
    Machine.steps p.stepFreely n r = .ok (r', later) ∧ later ≠ [] ∧ later.all isReduce ∧
    r'.stack.depth = r.stack.depth ∧ r'.stack.top = r.stack.top

variable {g : Grammar} {options : Options} {checks : Bool} {p : Parser} {r r' r₀ f f' : Run} {n q m needed head : Nat}
  {es es' later : List Event} {s : TokenStream} {phase : Phase} {w : List Nat}

theorem closing_of_not_isDone (h : ¬ phase.isDone) : r.closing phase = [] := by
  cases phase with
  | rejected why => exact absurd rfl h
  | _ => rfl

/-- What a run that goes on between two reads knows of itself: all it has marked was made by a reduce since
the last read. -/
structure Tracks (p : Parser) (r₀ r : Run) : Prop where
  decided : p.Decides r r.phase
  climbs : p.Climbs r₀ r.readDepth r
  seen : ∀ d t, r.seen.contains d t → ∃ m n r₁ f es later, Machine.steps p.stepFreely m r₀ = .ok (r₁, es) ∧
    es.getLast?.any isReduce ∧ Machine.steps p.stepFreely n r₁ = .ok (f, later) ∧ later.all isReduce ∧
    f.forget = r.forget ∧ r₁.stack.depth = d ∧ r₁.stack.top = t

/-- A run, not yet done, beside the machine that takes its steps freely. -/
structure Shadowed (p : Parser) (r₀ r : Run) : Prop where
  shadow : ∃ n es f, Machine.steps p.stepFreely n r₀ = .ok (f, es) ∧ f.forget = r.forget
  tracks : r.phase ≠ .reading → p.Tracks r₀ r

theorem shadowed_start (s : TokenStream) : p.Shadowed (Run.start s) (Run.start s) :=
  ⟨⟨0, [], _, rfl, rfl⟩, fun h => absurd rfl h⟩

theorem any_getLast?_concat {e : Event} (h : e.isReduce) : (es ++ [e]).getLast?.any isReduce := by
  simpa using h

/-- A read forgets what is marked, and the stack is no higher than it was when the token was read. -/
theorem tracks_read (r₀ : Run) (hd : p.Decides r.read phase) : p.Tracks r₀ { r.read with phase := phase } where
  decided := hd.congr rfl rfl
  climbs := .of_low (Nat.le_refl _)
  seen d t hseen := absurd hseen (by simp [Run.read])

/-- A reduce marks the stack that it makes; the free run `f` makes the same one, `f'`. -/
theorem Tracks.reduce {e : Event} (h : p.Tracks r₀ r) (ht : p.Takes r q needed head)
    (hg : p.tables.goto.lookup (r.pop needed).stack.top head = .ok (some m))
    (hd : p.Decides ((r.replace needed m).mark m) phase) (hf : Machine.steps p.stepFreely n r₀ = .ok (f, es))
    (hforget : f.forget = r.forget) (hf' : p.stepFreely f = .ok (f', [e])) (he : e.isReduce)
    (hforget' : f'.forget = Run.forget { (r.replace needed m).mark m with phase := phase }) :
    p.Tracks r₀ { (r.replace needed m).mark m with phase := phase } := by
  obtain ⟨hstack, hcur, -, hphase⟩ := Run.eq_of_forget hforget'
  have hshadow := Machine.steps_succ hf hf'
  have hdf : p.Decides f' f'.phase := by
    rw [hphase]
    exact hd.congr hstack hcur
  have hdr := h.decided
  rw [ht.phase] at hdr
  have hclimbs := h.climbs.reduce hdr ht hg ⟨_, _, hshadow⟩ (congrArg Stack.states hstack) hcur hdf
  refine ⟨hd.congr rfl rfl, hclimbs.congr hstack.symm hcur.symm, fun d t hseen => ?_⟩
  rcases (Seen.contains_insert _).mp hseen with ⟨rfl, rfl⟩ | hseen
  · exact ⟨_, 0, f', f', _, [], hshadow, any_getLast?_concat he, rfl, rfl, hforget',
      congrArg Stack.depth hstack, congrArg Stack.top hstack⟩
  · obtain ⟨i, j, r₁, f₁, es₁, later, hr₁, hlast, hlater, hall, hforget₁, hdepth, htop⟩ := h.seen d t hseen
    have hstep : p.stepFreely f₁ = p.stepFreely f := stepFreely_congr (hforget₁.trans hforget.symm)
    refine ⟨i, j + 1, r₁, f', es₁, later ++ [e], hr₁, hlast, Machine.steps_succ hlater (hstep.trans hf'), ?_,
      hforget', hdepth, htop⟩
    rw [List.all_append, hall]
    simpa using he

/-- A step of a run that is not done, taken by the run and freely beside it. -/
theorem Shadowed.effect (hpos : 0 < p.tables.stateCount) (h : p.Shadowed r₀ r) (he : p.Effect r r' es')
    (hnd : ¬ r'.phase.isDone) : p.Shadowed r₀ r' := by
  have hne : ∀ n q x, r'.phase ≠ .rejected (.reduceCycle n q x) := by
    intro n q x hcycle
    rw [hcycle] at hnd
    exact hnd rfl
  obtain ⟨n, es, f, hf, hforget⟩ := h.shadow
  obtain ⟨f', hf', hforget'⟩ := he.freely hpos hne hforget
  refine ⟨⟨_, _, f', Machine.steps_succ hf hf', hforget'⟩, fun hreading => ?_⟩
  cases he with
  | read _ _ hd => exact tracks_read r₀ hd
  | shift => exact absurd rfl hreading
  | reduce ht hc hg hcyc hd =>
    rw [closing_of_not_isDone hnd] at hf'
    exact (h.tracks ht.ne_reading).reduce ht hg hd hf hforget hf' rfl hforget'
  | underflow => exact absurd rfl hnd
  | accept => exact absurd rfl hnd
  | @strand q needed head =>
    obtain ⟨why, hwhy, -⟩ := p.exists_strand_eq r r.stack.top (r.pop needed).stack.top head
    rw [hwhy] at hnd
    exact absurd rfl hnd
  | cycle => exact absurd rfl hnd
  | done hd => exact absurd hd hnd

theorem shadowed_of_not_isDone (hpos : 0 < p.tables.stateCount) (h : p.steps n (Run.start s) = .ok (r, es))
    (hnd : ¬ r.phase.isDone) : p.Shadowed (Run.start s) r := by
  induction n generalizing r es with
  | zero =>
    obtain ⟨rfl, rfl⟩ := Prod.mk.inj (Except.ok.inj h)
    exact shadowed_start s
  | succ n ih =>
    obtain ⟨r₁, es₁, es₂, h₁, hs, rfl⟩ := Machine.steps_succ_eq_ok.mp h
    by_cases hd₁ : r₁.phase.isDone
    · rw [step_of_isDone hd₁] at hs
      obtain ⟨rfl, -⟩ := Prod.mk.inj (Except.ok.inj hs)
      exact ih h₁ hnd
    · exact (ih h₁ hd₁).effect hpos (effect_of_step hs) hnd

/-- The run would make the stack of `r'` by its reduce, and is stopped instead. -/
structure Stops (p : Parser) (r r' : Run) (q needed head m : Nat) : Prop where
  takes : p.Takes r q needed head
  not_completes : ¬ p.completes r head needed
  goto : p.tables.goto.lookup (r.pop needed).stack.top head = .ok (some m)
  cycling : (r.replace needed m).isCycling p.tables.stateCount m
  result : r' = { r.replace needed m with phase := .rejected (.reduceCycle m q r.current.symbol) }

/-- A run that was rejected for a cycle was stopped at a reduce. -/
theorem exists_stops (h : p.steps n (Run.start s) = .ok (r', es))
    (hcycle : ∃ n q x, r'.phase = .rejected (.reduceCycle n q x)) :
    ∃ n r es q needed head m, p.steps n (Run.start s) = .ok (r, es) ∧ p.Stops r r' q needed head m := by
  induction n generalizing r' es with
  | zero =>
    obtain ⟨rfl, rfl⟩ := Prod.mk.inj (Except.ok.inj h)
    obtain ⟨_, _, _, hcycle⟩ := hcycle
    cases hcycle
  | succ n ih =>
    obtain ⟨r, es₁, es₂, h₁, hs, rfl⟩ := Machine.steps_succ_eq_ok.mp h
    obtain ⟨n', q', x, hphase⟩ := hcycle
    cases effect_of_step hs with
    | read _ _ hd => exact absurd hphase (hd.ne_reduceCycle n' q' x)
    | reduce _ _ _ _ hd => exact absurd hphase (hd.ne_reduceCycle n' q' x)
    | @strand q needed head =>
      obtain ⟨why, hwhy, hne⟩ := p.exists_strand_eq r r.stack.top (r.pop needed).stack.top head
      exact absurd (Phase.rejected.inj (hwhy.symm.trans hphase)) (hne n' q' x)
    | @cycle q needed head m ht hc hg hcyc => exact ⟨n, r, es₁, q, needed, head, m, h₁, ht, hc, hg, hcyc, rfl⟩
    | done hd => exact ih h₁ ⟨n', q', x, hphase⟩
    | _ => simp at hphase

/-- Where a reduce is stopped the free machine takes it. It has made this stack before and reduces for ever, or
another stack that is not told from it; a stack that has grown too high grows for ever. -/
theorem Shadowed.stopped (hfits : p.tables.Fits) (h : p.Shadowed r₀ r) (hinside : r.Inside p.tables)
    (hs : p.Stops r r' q needed head m) : ∃ n es f, Machine.steps p.stepFreely n r₀ = .ok (f, es) ∧
      f.stack = r'.stack ∧ f.current = r'.current ∧ f.stream = r'.stream ∧
      (Machine.Endless p.stepFreely f ∨ Machine.Confuses p.stepFreely r₀) := by
  have hpos : 0 < p.tables.stateCount := Nat.pos_of_ne_zero hfits.states
  obtain ⟨ht, hc, hg, hcyc, rfl⟩ := hs
  have htracks := h.tracks ht.ne_reading
  obtain ⟨n, es, f, hf, hforget⟩ := h.shadow
  obtain ⟨phase, hd⟩ := exists_decides_total hfits.total (r.replace needed m)
  obtain ⟨f', e, tail, hf', hstack, hcur, hstream, hdf, he⟩ := ht.exists_stepFreely hpos hc hg hd
  rw [← stepFreely_congr hforget] at hf'
  refine ⟨n + 1, _, f', Machine.steps_succ hf hf', hstack, hcur, hstream, ?_⟩
  have hdr := htracks.decided
  rw [ht.phase] at hdr
  rw [Run.isCycling, Bool.or_eq_true, decide_eq_true_eq] at hcyc
  rcases hcyc with hover | hseen
  · -- the stack has grown past the bound
    have hstates : f'.stack.states = m :: r.stack.states.drop needed := congrArg Stack.states hstack
    have hclimbs := htracks.climbs.reduce hdr ht hg ⟨_, _, Machine.steps_succ hf hf'⟩ hstates hcur hdf
    have hlt : ∀ s ∈ f'.stack.states, s < p.tables.stateCount := by
      intro s hs
      rw [hstates] at hs
      rcases List.mem_cons.mp hs with rfl | hs
      · exact hfits.goto_lt hg
      · exact hinside.stack.bound s (List.mem_of_mem_drop hs)
    have hdepth : r.readDepth + p.tables.stateCount < f'.stack.depth := by
      rw [hstack]
      exact hover
    exact .inl (hclimbs.endless hfits.total hpos hlt hdepth hdf)
  · -- a stack of this depth with this state on top was made before
    obtain ⟨i, j, r₁, f₁, es₁, later, hr₁, hlast, hlater, hall, hforget₁, hdepth, htop⟩ := htracks.seen _ _ hseen
    rw [stepFreely_congr (hforget.trans hforget₁.symm)] at hf'
    by_cases hsame : f'.stack = r₁.stack
    · have hd₁ := decides_of_getLast? hr₁ hlast
      have hphase₁ : f₁.phase = .reducing q := (Run.eq_of_forget hforget₁).2.2.2.trans ht.phase
      obtain ⟨-, hcur₁, hstream₁⟩ := keeps_token hd₁.ne_reading hlater hall
      refine .inl (endless_of_return hd₁.ne_reading hlater hall hphase₁ hf' ?_)
      have hcur' : f'.current = r₁.current := by rw [hcur, ← hcur₁, (Run.eq_of_forget hforget₁).2.1]
      have hstream' : f'.stream = r₁.stream := by rw [hstream, ← hstream₁, (Run.eq_of_forget hforget₁).2.2.1]
      exact Run.forget_eq hsame hcur' hstream' (hdf.unique (hd₁.congr hsame hcur'))
    · refine .inr ⟨i, j, r₁, f₁, f', es₁, later, e, tail, hr₁, hlast, hlater, hall, hf', he, ?_, ?_, hsame⟩
      · rw [hdepth, hstack]
        rfl
      · rw [htop, hstack]
        rfl

/-- A step that records a reduce first has made a stack that is not marked, unless it was stopped. -/
theorem Effect.of_isReduce {e : Event} {tail : List Event} (he : p.Effect r r' es) (hes : es = e :: tail)
    (hreduce : e.isReduce) : (∃ n q x, r'.phase = .rejected (.reduceCycle n q x)) ∨
      p.Decides r' r'.phase ∧ tail = r'.closing r'.phase ∧ ¬ r.seen.contains r'.stack.depth r'.stack.top := by
  cases he with
  | @read phase _ _ _ =>
    cases phase with
    | rejected why =>
      obtain ⟨rfl, -⟩ := List.cons.inj hes
      cases hreduce
    | _ => cases hes
  | cycle => exact .inl ⟨_, _, _, rfl⟩
  | reduce ht hc hg hcyc hd =>
    obtain ⟨-, rfl⟩ := List.cons.inj hes
    refine .inr ⟨hd.congr rfl rfl, rfl, fun hseen => hcyc ?_⟩
    rw [Run.isCycling, Bool.or_eq_true]
    exact .inr hseen
  | done => cases hes
  | _ =>
    obtain ⟨rfl, -⟩ := List.cons.inj hes
    cases hreduce

/-- Stacks that are not told apart are returned to, if the run is accepted. -/
theorem returns_of_confuses (hsucc : p.Succeeds r₀) (h : Machine.Confuses p.stepFreely r₀) : p.Returns r₀ := by
  obtain ⟨i, j, r₁, r, r₂, es, later, e, tail, hr₁, hlast, hr, hall, hstep, he, hdepth, htop, -⟩ := h
  have hr₂ := Machine.steps_succ hr hstep
  have hnd : ¬ r₂.phase.isDone := by
    intro hdone
    have hacc := hsucc.phase_eq (Machine.steps_trans hr₁ hr₂) hdone
    rcases (effect_of_step hstep).of_isReduce rfl he with ⟨n, q, x, hcycle⟩ | ⟨hd, -⟩
    · cases hcycle.symm.trans hacc
    · exact hd.ne_accepted hacc
  obtain rfl : tail = [] := by
    rcases (effect_of_step hstep).of_isReduce rfl he with ⟨n, q, x, hcycle⟩ | ⟨-, htail, -⟩
    · rw [hcycle] at hnd
      exact absurd rfl hnd
    · rw [htail, closing_of_not_isDone hnd]
  refine ⟨i, j + 1, r₁, r₂, es, later ++ [e], hr₁, hlast, hr₂, by simp, ?_, hdepth, htop⟩
  rw [List.all_append, hall]
  simpa using he

theorem inside_of_steps (hfits : p.tables.Fits) (h : p.steps n (Run.start s) = .ok (r, es)) : r.Inside p.tables :=
  Machine.steps_induction (I := fun r _ => r.Inside p.tables) (inside_start hfits s)
    (fun _ _ _ _ hi hs => (effect_of_step hs).inside hfits hi) h

/-- A run that is rejected for a cycle would reduce for ever, or has made two stacks that are not told apart. -/
theorem stopped_of_steps (hfits : p.tables.Fits) (h : p.steps n (Run.start s) = .ok (r, es))
    (hcycle : ∃ n q x, r.phase = .rejected (.reduceCycle n q x)) :
    ∃ n es f, Machine.steps p.stepFreely n (Run.start s) = .ok (f, es) ∧ f.stack = r.stack ∧ f.current = r.current ∧
      f.stream = r.stream ∧ (Machine.Endless p.stepFreely f ∨ Machine.Confuses p.stepFreely (Run.start s)) := by
  obtain ⟨n, r₁, es₁, q, needed, head, m, h₁, hs⟩ := exists_stops h hcycle
  have hshadowed := shadowed_of_not_isDone (Nat.pos_of_ne_zero hfits.states) h₁ hs.takes.not_isDone
  exact hshadowed.stopped hfits (inside_of_steps hfits h₁) hs

theorem shadowed_of_steps (hsmall : (Automaton.of options g).Small g)
    (h : (of options checks g).steps n (Run.start s) = .ok (r, es)) :
    (¬ r.phase.isDone → (of options checks g).Shadowed (Run.start s) r) ∧
    ((of options checks g).Succeeds (Run.start s) → (∃ n q x, r.phase = .rejected (.reduceCycle n q x)) →
      (of options checks g).Returns (Run.start s)) := by
  refine ⟨shadowed_of_not_isDone stateCount_pos h, fun hsucc hcycle => ?_⟩
  obtain ⟨k, fs, f, hf, -, -, -, hend | hconfuses⟩ := stopped_of_steps (Tables.fits_of hsmall) h hcycle
  · obtain ⟨a, ⟨l, as, ha⟩, hacc⟩ := hsucc
    exact absurd (by rw [hacc]; rfl) (settles_stepFreely.not_isDone_of_endless hf hend ha)
  · exact returns_of_confuses hsucc hconfuses

/-- A stack that a reduce has made is marked until the next token is read. -/
theorem seen_of_steps (h : p.steps n (Run.start s) = .ok (r, es)) (hlast : es.getLast?.any isReduce) :
    r.phase ≠ .reading ∧ r.seen.contains r.stack.depth r.stack.top := by
  refine Machine.steps_induction (I := fun r es => es.getLast?.any isReduce →
    r.phase ≠ .reading ∧ r.seen.contains r.stack.depth r.stack.top) (by simp) ?_ h hlast
  intro r₁ r₂ es₁ es₂ ih hs hlast
  cases effect_of_step hs with
  | @read phase hp _ hd =>
    cases phase with
    | rejected why => exact absurd hlast (by simp [Run.closing, Run.event, isReduce])
    | _ => exact absurd hp (ih (by simpa [Run.closing] using hlast)).1
  | @reduce q needed head m phase ht hc hg hcyc hd =>
    exact ⟨hd.ne_reading, (Seen.contains_insert _).mpr (.inl ⟨rfl, rfl⟩)⟩
  | done => exact ih (by simpa using hlast)
  | _ => exact absurd hlast (by simp [Run.event, isReduce])

/-- Between two reads nothing is forgotten, and no reduce makes a stack that is marked. -/
theorem seen_mono (h : p.steps n r = .ok (r', later)) (hr : r.phase ≠ .reading) (hall : later.all isReduce) :
    r'.phase ≠ .reading ∧ (∀ d t, r.seen.contains d t → r'.seen.contains d t) ∧
      (later ≠ [] → ¬ r.seen.contains r'.stack.depth r'.stack.top) := by
  refine Machine.steps_induction (I := fun r' later => later.all isReduce → r'.phase ≠ .reading ∧
    (∀ d t, r.seen.contains d t → r'.seen.contains d t) ∧
    (later ≠ [] → ¬ r.seen.contains r'.stack.depth r'.stack.top)) ?_ ?_ h hall
  · exact fun _ => ⟨hr, fun _ _ hc => hc, fun hne => absurd rfl hne⟩
  intro r₁ r₂ es₁ es₂ ih hs hall
  rw [List.all_append, Bool.and_eq_true] at hall
  obtain ⟨hne, hmono, hnew⟩ := ih hall.1
  cases effect_of_step hs with
  | read hp => exact absurd hp hne
  | @reduce q needed head m phase ht hc hg hcyc hd =>
    refine ⟨hd.ne_reading, fun d t hseen => (Seen.contains_insert _).mpr (.inr (hmono d t hseen)), fun _ hseen => ?_⟩
    refine hcyc ?_
    rw [Run.isCycling, Bool.or_eq_true]
    exact .inr (hmono _ _ hseen)
  | done => exact ⟨hne, hmono, by simpa using hnew⟩
  | _ => exact absurd hall.2 (by simp [Run.event, isReduce])

/-- A run that is never stopped is the free one at every time. -/
theorem exists_steps_of_freely (ht : p.tables.Total) (hpos : 0 < p.tables.stateCount)
    (h : p.steps n (Run.start s) = .ok (r, es)) (hdone : r.phase.isDone)
    (hne : ∀ n q x, r.phase ≠ .rejected (.reduceCycle n q x)) {k : Nat}
    (hf : Machine.steps p.stepFreely k (Run.start s) = .ok (f, es')) :
    ∃ b, p.steps k (Run.start s) = .ok (b, es') ∧ f.forget = b.forget ∧
      ∀ n q x, b.phase ≠ .rejected (.reduceCycle n q x) := by
  obtain ⟨b, eb, hb, -⟩ := exists_steps_total ht (asked_start p.tables s) k
  have hnot : ∀ n q x, b.phase ≠ .rejected (.reduceCycle n q x) := by
    intro n q x hcycle
    have hphase := (settles_step.phase_eq hb (by rw [hcycle]; rfl) h hdone).1
    exact hne n q x (hphase.symm.trans hcycle)
  obtain ⟨f', hf', hforget⟩ := freely_of_steps hpos hb hnot
  obtain ⟨rfl, rfl⟩ := Prod.mk.inj (Except.ok.inj (hf.symm.trans hf'))
  exact ⟨b, hb, hforget, hnot⟩

theorem not_returns_of_accepted (hsmall : (Automaton.of options g).Small g)
    (h : (of options checks g).steps n (Run.start s) = .ok (r, es)) (hacc : r.phase = .accepted) :
    ¬ (of options checks g).Returns (Run.start s) := by
  rintro ⟨i, j, r₁, r₂, es₁, later, hr₁, hlast, hr₂, hne, hall, hdepth, htop⟩
  have htotal : (of options checks g).tables.Total := (Tables.fits_of hsmall).total
  have hdone : r.phase.isDone := by rw [hacc]; rfl
  have hnot : ∀ n q x, r.phase ≠ .rejected (.reduceCycle n q x) := by simp [hacc]
  obtain ⟨b₁, hb₁, hforget₁, -⟩ := exists_steps_of_freely htotal stateCount_pos h hdone hnot hr₁
  obtain ⟨b₂, hb₂, hforget₂, -⟩ :=
    exists_steps_of_freely htotal stateCount_pos h hdone hnot (Machine.steps_trans hr₁ hr₂)
  obtain ⟨b, eb, later', hb, hb', heq⟩ := Machine.steps_add_eq_ok.mp hb₂
  obtain ⟨rfl, rfl⟩ := Prod.mk.inj (Except.ok.inj (hb₁.symm.trans hb))
  obtain rfl := List.append_cancel_left heq
  obtain ⟨hreading, hseen⟩ := seen_of_steps hb₁ hlast
  have hnew := (seen_mono hb' hreading hall).2.2 hne
  have hstack₁ := (Run.eq_of_forget hforget₁).1
  have hstack₂ := (Run.eq_of_forget hforget₂).1
  rw [← hstack₂, hdepth, htop, hstack₁] at hnew
  exact hnew hseen

/-- Without conflicts the machine that stops no cycle accepts every sentence. The parser accepts it, as well,
unless two of the stacks made on the way are told apart neither by their depth nor by the state on top; it
stops at a cycle then. -/
theorem parse_accepted_iff (checks : Bool) (hsmall : (Automaton.of options g).Small g)
    (hfree : (Automaton.of options g).conflicts = []) (hw : g.Terminal w) (hder : g.Derives [g.start] w) :
    (of options checks g).Succeeds (Run.start (.ofSymbols w)) ∧
    ∃ r es, (of options checks g).parse (.ofSymbols w) = .ok (r, es) ∧
      (r.phase = .accepted ↔ ¬ (of options checks g).Returns (Run.start (.ofSymbols w))) ∧
      (r.phase = .accepted ∨ ∃ n q x, r.phase = .rejected (.reduceCycle n q x)) := by
  have hspells := TokenStream.spells_ofSymbols (Grammar.ne_endId_of_derives g.start_nonterminal hder)
  have hsucc : (of options checks g).Succeeds _ := exists_accepted_freely hsmall hfree hw hder hspells
  refine ⟨hsucc, ?_⟩
  obtain ⟨n, r, es, h, hparse, hdone⟩ :=
    exists_parse (p := of options checks g) (ending_of hsmall) (Tables.fits_of hsmall).total (.ofSymbols w)
  -- a rejection is one for a cycle, and then the free run returns
  have hcycle : ∀ why, r.phase = .rejected why → ∃ n q x, r.phase = .rejected (.reduceCycle n q x) := by
    intro why hwhy
    by_contra hno
    refine not_succeeds_of_rejected stateCount_pos h hwhy (fun n q x heq => ?_) hsucc
    exact hno ⟨n, q, x, heq ▸ hwhy⟩
  cases hphase : r.phase with
  | accepted =>
    exact ⟨r, es, hparse, ⟨fun _ => not_returns_of_accepted hsmall h hphase, fun _ => hphase⟩, .inl hphase⟩
  | rejected why =>
    have hstopped := hcycle why hphase
    have hreturns := (shadowed_of_steps hsmall h).2 hsucc hstopped
    refine ⟨r, es, hparse, ⟨fun hacc => ?_, fun hno => absurd hreturns hno⟩, .inr hstopped⟩
    rw [hphase] at hacc
    cases hacc
  | _ =>
    rw [hphase] at hdone
    exact absurd hdone Bool.false_ne_true

theorem parse_accepted_iff_nested : ∃ r es,
    (of ⟨.slr, .shift, .first⟩ true .nested).parse (.ofSymbols [1, 2]) = .ok (r, es) ∧ r.phase = .accepted ∧
      ¬ (of ⟨.slr, .shift, .first⟩ true .nested).Returns (Run.start (.ofSymbols [1, 2])) := by
  have hder : Grammar.nested.Derives [3] [1, 2] :=
    .head ⟨⟨3, [1, 3, 2]⟩, by decide, [], [], rfl, rfl⟩
      (.head ⟨⟨3, []⟩, by decide, [1], [2], rfl, rfl⟩ (.refl [1, 2]))
  have hterminal : Grammar.nested.Terminal [1, 2] :=
    (Grammar.Terminal.singleton (by decide)).append (.singleton (by decide))
  have hrun : ((of ⟨.slr, .shift, .first⟩ true .nested).steps 7 (Run.start (.ofSymbols [1, 2]))).map
      (fun o => (o.1.phase.isDone, o.1.phase)) = .ok (true, .accepted) := by decide +kernel
  obtain ⟨-, r, es, h, hiff, -⟩ :=
    parse_accepted_iff true Automaton.small_nested (by decide +kernel) hterminal hder
  obtain ⟨r', es', h', hacc⟩ := exists_finish_of_map_eq_ok hrun
  obtain ⟨rfl, rfl⟩ := Prod.mk.inj (Except.ok.inj (h.symm.trans h'))
  exact ⟨r, es, h, hacc, hiff.mp hacc⟩

end Parser

/-- The sentence `y`, behind which `A` vanishes twice: `S` is `X A` and `X` is `Y A`. -/
def Grammar.vanishing : Grammar where
  symbols := ⟨["y"], ["S", "X", "Y", "A", "Z"], by decide⟩
  productions := [⟨2, [3, 5]⟩, ⟨3, [4, 5]⟩, ⟨4, [1]⟩, ⟨5, [6]⟩, ⟨6, []⟩]
  start := 2
  start_nonterminal := by decide
  fits := fun p hp => Production.fits_of_fault? (by revert p; decide)
  headed := by decide

namespace Parser

theorem parse_stops_vanishing : Grammar.vanishing.cyclic = [] ∧
    (Automaton.of {} .vanishing).conflicts = [] ∧ Grammar.vanishing.Terminal [1] ∧
    Grammar.vanishing.Derives [2] [1] ∧ ∃ r es,
      (of {} false .vanishing).parse (.ofSymbols [1]) = .ok (r, es) ∧
        r.phase = .rejected (.reduceCycle 5 4 endId) := by
  refine ⟨by decide +kernel, by decide +kernel, .singleton (by decide), ?_, ?_⟩
  · refine .head ⟨⟨2, [3, 5]⟩, by decide, [], [], rfl, rfl⟩ ?_
    refine .head ⟨⟨3, [4, 5]⟩, by decide, [], [5], rfl, rfl⟩ ?_
    refine .head ⟨⟨4, [1]⟩, by decide, [], [5, 5], rfl, rfl⟩ ?_
    refine .head ⟨⟨5, [6]⟩, by decide, [1], [5], rfl, rfl⟩ ?_
    refine .head ⟨⟨6, []⟩, by decide, [1], [5], rfl, rfl⟩ ?_
    refine .head ⟨⟨5, [6]⟩, by decide, [1], [], rfl, rfl⟩ ?_
    exact .head ⟨⟨6, []⟩, by decide, [1], [], rfl, rfl⟩ (.refl [1])
  · have hrun : ((of {} false .vanishing).steps 8 (Run.start (.ofSymbols [1]))).map
        (fun o => (o.1.phase.isDone, o.1.phase)) = .ok (true, .rejected (.reduceCycle 5 4 endId)) := by decide +kernel
    exact exists_finish_of_map_eq_ok hrun

end Parser

end ShiftReduce
