import ShiftReduce.Proofs.Run.Bounds
import ShiftReduce.Proofs.Run.Finish
import ShiftReduce.Proofs.Run.Tokens

/-!
# What a run records

Whatever the tables, the events of a run can be replayed: each shift carries the next token of the stream and puts
one state on the stack, each reduce takes as many states off it as its production is long and puts one on it, and
one more event is recorded when the run is done (`Run.Recorded`). `steps_recorded`: this holds after any number of
steps that meet no fault, and steps after the end neither record nor read nor change anything.
-/

namespace ShiftReduce

/-- The depth that shifts and reduces lead to from the first stack, as they tell it. -/
inductive Replays (t : Tables) : List Event → Nat → Prop
  | start : Replays t [] 1
  | shift {es : List Event} {d : Nat} {e : Event} (h : Replays t es d) (ha : e.action = .shift)
      (hd : e.depth = d + 1) : Replays t (es ++ [e]) e.depth
  | reduce {es : List Event} {d q k : Nat} {e : Event} (h : Replays t es d) (ha : e.action = .reduce q)
      (hk : t.length q = .ok k) (hd : e.depth + k = d + 1) : Replays t (es ++ [e]) e.depth

/-- The event is that of the end of a run. -/
def Event.closes (e : Event) : Bool :=
  match e.action with
  | .accept | .reject => true
  | .shift | .reduce _ => false

theorem Replays.not_closes {t : Tables} {es : List Event} {d : Nat} (h : Replays t es d) : ∀ e ∈ es, ¬ e.closes := by
  induction h with
  | start => exact fun e he => absurd he List.not_mem_nil
  | shift _ ha _ ih =>
    intro e he
    rcases List.mem_append.mp he with he | he
    · exact ih e he
    · rw [List.mem_singleton.mp he, Event.closes, ha]
      exact Bool.false_ne_true
  | reduce _ ha _ _ ih =>
    intro e he
    rcases List.mem_append.mp he with he | he
    · exact ih e he
    · rw [List.mem_singleton.mp he, Event.closes, ha]
      exact Bool.false_ne_true

namespace Run

/-- The events that have led to a run: shifts and reduces down to the depth of its stack and, once it is done, one
event more for the end. -/
inductive Recorded (t : Tables) (r : Run) : List Event → Prop
  | going {es : List Event} (h : Replays t es r.stack.depth) (hgoing : ¬ r.phase.isDone) : Recorded t r es
  | accepted {es : List Event} {d : Nat} (h : Replays t es d) (hphase : r.phase = .accepted)
      (hdepth : r.stack.depth = 1) (hend : r.current.isEnd) (hmore : r.stream.hasMore = false) :
      Recorded t r (es ++ [r.event .accept])
  | rejected {es : List Event} {d : Nat} {why : Rejection} (h : Replays t es d) (hphase : r.phase = .rejected why) :
      Recorded t r (es ++ [r.event .reject])

namespace Recorded

variable {t : Tables} {r : Run} {es : List Event}

/-- Nothing but the last event is that of an end. -/
theorem not_closes (h : r.Recorded t es) : ∀ e ∈ es.dropLast, ¬ e.closes := by
  cases h with
  | going h => exact fun e he => h.not_closes e ((List.dropLast_sublist _).mem he)
  | accepted h => simpa using h.not_closes
  | rejected h => simpa using h.not_closes

theorem isDone_iff (h : r.Recorded t es) : r.phase.isDone ↔ ∃ e, es.getLast? = some e ∧ e.closes := by
  cases h with
  | going h hgoing =>
    refine iff_of_false hgoing ?_
    rintro ⟨e, he, hc⟩
    exact h.not_closes e (List.mem_of_getLast? he) hc
  | accepted _ hphase => exact iff_of_true (by simp [hphase, Phase.isDone]) ⟨_, List.getLast?_concat, rfl⟩
  | rejected _ hphase => exact iff_of_true (by simp [hphase, Phase.isDone]) ⟨_, List.getLast?_concat, rfl⟩

end Recorded

end Run

namespace Parser

open Event

variable {p : Parser} {m n : Nat} {r r' : Run} {es es' : List Event} {phase : Phase} {s : TokenStream}

theorem Decides.recorded (hd : p.Decides r phase) (h : Replays p.tables es r.stack.depth) :
    Run.Recorded p.tables { r with phase := phase } (es ++ r.closing phase) := by
  cases hd with
  | shift => exact (List.append_nil es).symm ▸ .going h (by simp [Phase.isDone])
  | reduce => exact (List.append_nil es).symm ▸ .going h (by simp [Phase.isDone])
  | refuse => exact .rejected h rfl
  | mismatch => exact .rejected h rfl

/-- Where a state is put in the place of those of a right-hand side, the event of the reduce tells it. -/
theorem Takes.replays {q needed head target : Nat} (ht : p.Takes r q needed head) (h : Replays p.tables es r.stack.depth) :
    Replays p.tables (es ++ [(r.replace needed target).event (.reduce q)]) (r.replace needed target).stack.depth := by
  refine .reduce (e := (r.replace needed target).event (.reduce q)) h rfl ht.length ?_
  have hdepth := ht.depth
  show r.stack.depth - needed + 1 + needed = r.stack.depth + 1
  omega

theorem Effect.recorded (he : p.Effect r r' es') (h : r.Recorded p.tables es) : r'.Recorded p.tables (es ++ es') := by
  by_cases hdone : r.phase.isDone
  · cases (step_of_effect he).symm.trans (step_of_isDone hdone)
    rwa [List.append_nil]
  have hreplays : Replays p.tables es r.stack.depth := by
    cases h with
    | going h => exact h
    | accepted _ hphase => simp [hphase, Phase.isDone] at hdone
    | rejected _ hphase => simp [hphase, Phase.isDone] at hdone
  cases he with
  | read _ _ hd => exact hd.recorded hreplays
  | @shift m => exact .going (.shift (e := (r.push m).event .shift) hreplays rfl rfl) (by simp [Phase.isDone])
  | underflow => exact .rejected hreplays rfl
  | accept ht hc =>
    simp only [completes, Bool.and_eq_true, Bool.not_eq_true'] at hc
    have hpos : 0 < r.stack.depth := Nat.zero_lt_of_lt ht.depth
    exact .accepted hreplays rfl (Nat.min_eq_left hpos) hc.1.1.2 hc.2
  | @strand q needed head =>
    obtain ⟨why, hwhy, -⟩ := p.exists_strand_eq r r.stack.top (r.pop needed).stack.top head
    exact .rejected hreplays hwhy
  | cycle ht =>
    rw [← List.singleton_append, ← List.append_assoc]
    exact .rejected (ht.replays hreplays) rfl
  | reduce ht _ _ _ hd =>
    rw [← List.singleton_append, ← List.append_assoc]
    exact hd.recorded (ht.replays hreplays)
  | done h => exact absurd h hdone

theorem recorded_of_steps (h : p.steps n (Run.start s) = .ok (r, es)) : r.Recorded p.tables es :=
  Machine.steps_induction (I := fun r es => r.Recorded p.tables es) (.going .start (by simp [Run.start, Phase.isDone]))
    (fun _ _ _ _ h₁ hs => (effect_of_step hs).recorded h₁) h

/-- A run that is done reads nothing more. -/
theorem reads_of_isDone (h : p.steps n r = .ok (r', es)) (hdone : r'.phase.isDone) (m : Nat) :
    p.reads r (n + m) = p.reads r n := by
  have hreading : r'.phase ≠ .reading := fun hp => by simp [hp, Phase.isDone] at hdone
  induction m with
  | zero => rfl
  | succ m ih =>
    have hstay := Machine.steps_trans h (steps_of_isDone hdone m)
    rw [← Nat.add_assoc, reads_succ hstay, if_neg hreading, ih, Nat.add_zero]

/-- After any number of steps without a fault, over any tables and on any tokens: the tokens shifted and the one
held are those that were read, in order. The events replay the depths of the stack from that of the first one, and
one more event is recorded for the end: an accept on a stack of one state, with the end token read and no token
left, or a reject. So an event of an end is always the last, and it is there exactly when the run is done; from
then on steps record, read and change nothing. To finish a run is to take some number of steps. -/
theorem steps_recorded (h : p.steps n (Run.start s) = .ok (r, es)) :
    s.draw (p.reads (Run.start s) n) = (shifted es ++ r.held, r.stream) ∧
      r.Recorded p.tables es ∧
      (∀ e ∈ es.dropLast, ¬ e.closes) ∧ (r.phase.isDone ↔ ∃ e, es.getLast? = some e ∧ e.closes) ∧
      (r.phase.isDone → ∀ m, p.steps (n + m) (Run.start s) = .ok (r, es) ∧
        p.reads (Run.start s) (n + m) = p.reads (Run.start s) n) ∧
      ∀ r' es', p.finish r = .ok (r', es') → ∃ m, p.steps (n + m) (Run.start s) = .ok (r', es ++ es') := by
  have hrecorded := recorded_of_steps h
  refine ⟨steps_draw h, hrecorded, hrecorded.not_closes, hrecorded.isDone_iff, fun hdone m => ⟨?_, ?_⟩, ?_⟩
  · have hstay := Machine.steps_trans h (steps_of_isDone hdone m)
    rwa [List.append_nil] at hstay
  · exact reads_of_isDone h hdone m
  · intro r' es' hfinish
    obtain ⟨-, m, hsteps⟩ := finish_eq_ok.mp hfinish
    exact ⟨m, Machine.steps_trans h hsteps⟩

/-- An end token that is not the last is shifted or held like any other, here over tables of no grammar. -/
theorem steps_recorded_overlapping : ∃ r es,
    (Parser.mk overlapping true).steps 5 (Run.start ⟨[⟨1, "x"⟩, ⟨0, "y"⟩, ⟨1, "z"⟩]⟩) = .ok (r, es) ∧
      r.phase = .rejected (.stackUnderflow 0 7 1) ∧ es = [⟨1, "x", .shift, 2⟩, ⟨0, "y", .reject, 2⟩] ∧
      r.Recorded overlapping es ∧ shifted es ++ r.held = [⟨1, "x"⟩, ⟨0, "y"⟩] ∧ r.stream = ⟨[⟨1, "z"⟩]⟩ := by
  obtain ⟨s, hs⟩ : ∃ s : TokenStream, s = ⟨[⟨1, "x"⟩, ⟨0, "y"⟩, ⟨1, "z"⟩]⟩ := ⟨_, rfl⟩
  have hrun : ((Parser.mk overlapping true).steps 5 (Run.start s)).map (fun o => (o.1.phase, o.2))
      = .ok (.rejected (.stackUnderflow 0 7 1), [⟨1, "x", .shift, 2⟩, ⟨0, "y", .reject, 2⟩]) := by
    subst hs; decide +kernel
  have hreads : (Parser.mk overlapping true).reads (Run.start s) 5 = 2 := by subst hs; decide +kernel
  obtain ⟨r, es, h, hview⟩ := exists_of_map_eq_ok hrun
  obtain ⟨hphase, hes⟩ := Prod.mk.inj hview
  obtain ⟨hdraw, hrecorded, -⟩ := steps_recorded h
  rw [hreads, hs] at hdraw
  obtain ⟨htokens, hstream⟩ := Prod.mk.inj hdraw
  exact ⟨r, es, hs ▸ h, hphase, hes, hrecorded, htokens.symm, hstream.symm⟩

end Parser

end ShiftReduce
