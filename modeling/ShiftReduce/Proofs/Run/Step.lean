import ShiftReduce.Proofs.Except
import ShiftReduce.Run.Basic

/-!
# What a step can do

`Decides` has one case for each decision about the current token and `Effect` one for each way to take a
step. All that is proved of runs goes through these cases (`effect_of_step`, `step_of_effect`).
-/

namespace ShiftReduce

namespace Stack

variable (s : Stack) {n k : Nat} {s' : Stack}

/-- The state on top; 0 if there is none. -/
def top : Nat :=
  s.states.headD 0

/-- The number of states above the lowest one; 0 if there is none. -/
def height : Nat :=
  s.depth - 1

/-- The stack with some states taken off; all of them if there are fewer. -/
def pop (count : Nat) : Stack :=
  ⟨s.states.drop count, s.depth - count, s.depth_sub count⟩

@[simp] theorem states_pop (count : Nat) : (s.pop count).states = s.states.drop count := rfl

variable {s}

theorem peek_eq_ok : s.peek = .ok n ↔ 0 < s.depth ∧ s.top = n := by
  rw [peek, top, s.depth_eq]
  cases s.states <;> simp

theorem available_eq_ok : s.available = .ok n ↔ 0 < s.depth ∧ s.height = n := by
  rw [available, height]
  split <;> simp <;> omega

theorem drop_eq_ok : s.drop k = .ok s' ↔ k ≤ s.depth ∧ s.pop k = s' := by
  rw [drop, pop]
  split <;> simp <;> omega

end Stack

namespace Run

variable (r : Run)

/-- What entering a phase records. -/
def closing : Phase → List Event
  | .rejected _ => [r.event .reject]
  | _ => []

theorem enter_eq (phase : Phase) (events : List Event) :
    r.enter phase events = ({ r with phase := phase }, events ++ r.closing phase) := by
  cases phase <;> simp [enter, closing, event]

/-- The run with some states taken off the stack. -/
def pop (count : Nat) : Run :=
  { r with stack := r.stack.pop count }

/-- The run with a state put in the place of the topmost ones. -/
def replace (count target : Nat) : Run :=
  (r.pop count).push target

end Run

namespace Parser

variable {p : Parser} {r r' : Run} {events : List Event} {phase : Phase}

/-- The phase that the tables give for the state on top and the current symbol. -/
inductive Decides (p : Parser) (r : Run) : Phase → Prop
  | shift {m : Nat} (h : p.tables.shift.lookup r.stack.top r.current.symbol = .ok (some m)) :
      Decides p r (.shifting m)
  | refuse (h : p.tables.shift.lookup r.stack.top r.current.symbol = .ok none)
      (hq : p.tables.reduce? r.stack.top = none) :
      Decides p r (.rejected (.noAction r.stack.top r.current.symbol r.current.text))
  | mismatch {q : Nat} (h : p.tables.shift.lookup r.stack.top r.current.symbol = .ok none)
      (hq : p.tables.reduce? r.stack.top = some q) (hc : p.checksLookahead)
      (ha : ¬ p.tables.admits q r.current.symbol) :
      Decides p r (.rejected (.lookaheadMismatch r.stack.top q r.current.symbol))
  | reduce {q : Nat} (h : p.tables.shift.lookup r.stack.top r.current.symbol = .ok none)
      (hq : p.tables.reduce? r.stack.top = some q)
      (ha : p.checksLookahead → p.tables.admits q r.current.symbol) : Decides p r (.reducing q)

theorem decide_eq_ok : p.decide r = .ok phase ↔ 0 < r.stack.depth ∧ p.Decides r phase := by
  constructor
  · intro hd
    rw [decide, bind_eq_ok] at hd
    obtain ⟨n, hn, hd⟩ := hd
    obtain ⟨hpos, rfl⟩ := Stack.peek_eq_ok.mp hn
    rw [bind_eq_ok] at hd
    obtain ⟨m, h, hd⟩ := hd
    refine ⟨hpos, ?_⟩
    cases m with
    | some m => exact Except.ok.inj hd ▸ .shift h
    | none =>
    cases hq : p.tables.reduce? r.stack.top with
    | none =>
      simp only [hq] at hd
      exact Except.ok.inj hd ▸ .refuse h hq
    | some q =>
      simp only [hq] at hd
      split at hd
      · next hc =>
        rw [Bool.and_eq_true, Bool.not_eq_true'] at hc
        exact Except.ok.inj hd ▸ .mismatch h hq hc.1 (by rw [hc.2]; exact Bool.false_ne_true)
      · next hc =>
        refine Except.ok.inj hd ▸ .reduce h hq fun hcheck => ?_
        simpa [hcheck] using hc
  · rintro ⟨hpos, hd⟩
    rw [decide, bind_eq_ok]
    refine ⟨r.stack.top, Stack.peek_eq_ok.mpr ⟨hpos, rfl⟩, ?_⟩
    cases hd with
    | shift h => simp [h, bind, Except.bind, pure, Except.pure]
    | refuse h hq => simp [h, hq, Run.noAction, bind, Except.bind, pure, Except.pure]
    | mismatch h hq hc ha => simp [h, hq, hc, ha, bind, Except.bind, pure, Except.pure]
    | @reduce q h hq ha =>
      have hno : (p.checksLookahead && !p.tables.admits q r.current.symbol) = false := by
        cases hc : p.checksLookahead with
        | false => rfl
        | true => rw [ha hc]; rfl
      simp [h, hq, hno, bind, Except.bind, pure, Except.pure]

/-- The decision is about the stack and the current token. -/
theorem Decides.congr (hd : p.Decides r phase) (hs : r'.stack = r.stack) (hc : r'.current = r.current) :
    p.Decides r' phase := by
  cases hd with
  | shift h => exact .shift (by rwa [hs, hc])
  | refuse h hq =>
    rw [← hs, ← hc] at *
    exact .refuse h hq
  | mismatch h hq hcheck ha =>
    rw [← hs, ← hc] at *
    exact .mismatch h hq hcheck ha
  | reduce h hq ha =>
    rw [← hs, ← hc] at *
    exact .reduce h hq ha

theorem Decides.ne_reading (hd : p.Decides r phase) : phase ≠ .reading := by
  cases hd <;> simp

theorem Decides.ne_accepted (hd : p.Decides r phase) : phase ≠ .accepted := by
  cases hd <;> simp

theorem Decides.ne_reduceCycle (hd : p.Decides r phase) (n q x : Nat) : phase ≠ .rejected (.reduceCycle n q x) := by
  cases hd <;> simp

/-- A run that is to reduce has the states for it on its stack. -/
structure Takes (p : Parser) (r : Run) (q needed head : Nat) : Prop where
  phase : r.phase = .reducing q
  length : p.tables.length q = .ok needed
  head : p.tables.head q = .ok head
  depth : needed < r.stack.depth

theorem Takes.height {q needed head : Nat} (h : p.Takes r q needed head) : needed ≤ r.stack.height :=
  Nat.le_sub_one_of_lt h.depth

theorem Takes.ne_reading {q needed head : Nat} (h : p.Takes r q needed head) : r.phase ≠ .reading := by
  simp [h.phase]

theorem Takes.not_isDone {q needed head : Nat} (h : p.Takes r q needed head) : ¬ r.phase.isDone := by
  simp [h.phase, Phase.isDone]

/-- What a step makes of a run and which events it records. -/
inductive Effect (p : Parser) (r : Run) : Run → List Event → Prop
  | read {phase : Phase} (h : r.phase = .reading) (hs : 0 < r.stack.depth) (hd : p.Decides r.read phase) :
      Effect p r { r.read with phase := phase } (r.read.closing phase)
  | shift {m : Nat} (h : r.phase = .shifting m) :
      Effect p r { r.push m with phase := .reading } [(r.push m).event .shift]
  | underflow {q needed head : Nat} (h : r.phase = .reducing q) (hn : p.tables.length q = .ok needed)
      (hh : p.tables.head q = .ok head) (hs : 0 < r.stack.depth) (hlt : r.stack.height < needed) :
      Effect p r { r with phase := .rejected (.stackUnderflow q needed r.stack.height) } [r.event .reject]
  | accept {q needed head : Nat} (h : p.Takes r q needed head) (hc : p.completes r head needed) :
      Effect p r { r with stack := r.stack.lowest, phase := .accepted }
        [Run.event { r with stack := r.stack.lowest } .accept]
  | strand {q needed head : Nat} (h : p.Takes r q needed head) (hc : ¬ p.completes r head needed)
      (hg : p.tables.goto.lookup (r.pop needed).stack.top head = .ok none) :
      Effect p r { r.pop needed with phase := p.strand r r.stack.top (r.pop needed).stack.top head }
        [(r.pop needed).event .reject]
  | cycle {q needed head m : Nat} (h : p.Takes r q needed head) (hc : ¬ p.completes r head needed)
      (hg : p.tables.goto.lookup (r.pop needed).stack.top head = .ok (some m))
      (hcyc : (r.replace needed m).isCycling p.tables.stateCount m) :
      Effect p r { r.replace needed m with phase := .rejected (.reduceCycle m q r.current.symbol) }
        [(r.replace needed m).event (.reduce q), (r.replace needed m).event .reject]
  | reduce {q needed head m : Nat} {phase : Phase} (h : p.Takes r q needed head)
      (hc : ¬ p.completes r head needed)
      (hg : p.tables.goto.lookup (r.pop needed).stack.top head = .ok (some m))
      (hcyc : ¬ (r.replace needed m).isCycling p.tables.stateCount m)
      (hd : p.Decides ((r.replace needed m).mark m) phase) :
      Effect p r { (r.replace needed m).mark m with phase := phase }
        ((r.replace needed m).event (.reduce q) :: ((r.replace needed m).mark m).closing phase)
  | done (h : r.phase.isDone) : Effect p r r []

/-- A run that is stranded is rejected, and not for a cycle. -/
theorem exists_strand_eq (p : Parser) (r : Run) (top below head : Nat) :
    ∃ why, p.strand r top below head = .rejected why ∧ ∀ n q x, why ≠ .reduceCycle n q x := by
  rw [strand]
  split
  · exact ⟨_, rfl, by simp⟩
  · exact ⟨_, rfl, by simp⟩

theorem effect_of_reduce {q : Nat} (hphase : r.phase = .reducing q) (h : p.reduce r q = .ok (r', events)) :
    p.Effect r r' events := by
  simp only [reduce, bind_eq_ok] at h
  obtain ⟨needed, hn, head, hh, available, havailable, h⟩ := h
  obtain ⟨hpos, rfl⟩ := Stack.available_eq_ok.mp havailable
  split at h
  · next hlt =>
    rw [Run.enter_eq] at h
    obtain ⟨rfl, rfl⟩ := Prod.mk.inj (Except.ok.inj h)
    exact .underflow hphase hn hh hpos hlt
  next hle =>
  have htakes : p.Takes r q needed head := by
    refine ⟨hphase, hn, hh, ?_⟩
    rw [Stack.height] at hle
    omega
  split at h
  · next hc =>
    obtain ⟨rfl, rfl⟩ := Prod.mk.inj (Except.ok.inj h)
    exact .accept htakes hc
  next hc =>
  simp only [bind_eq_ok] at h
  obtain ⟨top, htop, stack, hstack, below, hbelow, m, hg, h⟩ := h
  obtain ⟨-, rfl⟩ := Stack.peek_eq_ok.mp htop
  obtain ⟨-, rfl⟩ := Stack.drop_eq_ok.mp hstack
  obtain ⟨-, rfl⟩ := Stack.peek_eq_ok.mp hbelow
  cases m with
  | none =>
    simp only [Run.enter_eq] at h
    obtain ⟨rfl, rfl⟩ := Prod.mk.inj (Except.ok.inj h)
    obtain ⟨why, hwhy, -⟩ := p.exists_strand_eq r r.stack.top (r.pop needed).stack.top head
    have heffect := Effect.strand htakes hc hg
    change p.Effect r { r.pop needed with phase := p.strand r r.stack.top (r.pop needed).stack.top head }
      ((r.pop needed).closing (p.strand r r.stack.top (r.pop needed).stack.top head))
    rwa [hwhy] at heffect ⊢
  | some m =>
    simp only [proceed] at h
    change (if (r.replace needed m).isCycling p.tables.stateCount m then _ else _) = _ at h
    split at h
    · next hcyc =>
      rw [Run.enter_eq] at h
      obtain ⟨rfl, rfl⟩ := Prod.mk.inj (Except.ok.inj h)
      exact .cycle htakes hc hg hcyc
    · next hcyc =>
      simp only [bind_eq_ok] at h
      obtain ⟨phase, hd, h⟩ := h
      rw [Run.enter_eq] at h
      obtain ⟨rfl, rfl⟩ := Prod.mk.inj (Except.ok.inj h)
      exact .reduce htakes hc hg hcyc (decide_eq_ok.mp hd).2

theorem effect_of_step (h : p.step r = .ok (r', events)) : p.Effect r r' events := by
  rw [step] at h
  cases hphase : r.phase with
  | reading =>
    rw [hphase] at h
    simp only [bind_eq_ok] at h
    obtain ⟨phase, hd, h⟩ := h
    rw [Run.enter_eq] at h
    obtain ⟨rfl, rfl⟩ := Prod.mk.inj (Except.ok.inj h)
    obtain ⟨hpos, hd⟩ := decide_eq_ok.mp hd
    exact .read hphase hpos hd
  | shifting m =>
    rw [hphase] at h
    obtain ⟨rfl, rfl⟩ := Prod.mk.inj (Except.ok.inj h)
    exact .shift hphase
  | reducing q =>
    rw [hphase] at h
    exact effect_of_reduce hphase h
  | accepted =>
    rw [hphase] at h
    obtain ⟨rfl, rfl⟩ := Prod.mk.inj (Except.ok.inj h)
    exact .done (by rw [hphase]; rfl)
  | rejected why =>
    rw [hphase] at h
    obtain ⟨rfl, rfl⟩ := Prod.mk.inj (Except.ok.inj h)
    exact .done (by rw [hphase]; rfl)

/-- A reduce that has its states completes the input or looks for the goto of its head. -/
theorem reduce_of_takes {q needed head : Nat} (h : p.Takes r q needed head) :
    p.reduce r q = if p.completes r head needed then
        .ok ({ r with stack := r.stack.lowest, phase := .accepted },
          [Run.event { r with stack := r.stack.lowest } .accept])
      else p.tables.goto.lookup (r.pop needed).stack.top head >>= fun m => match m with
        | none => .ok ((r.pop needed).enter (p.strand r r.stack.top (r.pop needed).stack.top head) [])
        | some m => p.proceed (r.pop needed) q m := by
  have hpos : 0 < r.stack.depth := Nat.zero_lt_of_lt h.depth
  have havailable : r.stack.available = .ok r.stack.height := Stack.available_eq_ok.mpr ⟨hpos, rfl⟩
  have htop : r.stack.peek = .ok r.stack.top := Stack.peek_eq_ok.mpr ⟨hpos, rfl⟩
  have hdrop : r.stack.drop needed = .ok (r.stack.pop needed) := Stack.drop_eq_ok.mpr ⟨Nat.le_of_lt h.depth, rfl⟩
  have hbelow : (r.stack.pop needed).peek = .ok (r.stack.pop needed).top :=
    Stack.peek_eq_ok.mpr ⟨Nat.sub_pos_of_lt h.depth, rfl⟩
  rw [reduce, h.length, h.head, havailable]
  simp only [bind, Except.bind, Nat.not_lt.mpr h.height, if_false, htop, hdrop, hbelow, pure, Except.pure]
  rfl

theorem step_of_effect (h : p.Effect r r' events) : p.step r = .ok (r', events) := by
  cases h with
  | read h hs hd =>
    have hdecide : p.decide r.read = .ok _ := decide_eq_ok.mpr ⟨hs, hd⟩
    simp [step, h, hdecide, bind, Except.bind, pure, Except.pure, Run.enter_eq]
  | shift h => simp [step, h, Run.event]
  | underflow h hn hh hs hlt =>
    have havailable : r.stack.available = .ok r.stack.height := Stack.available_eq_ok.mpr ⟨hs, rfl⟩
    simp [step, h, reduce, hn, hh, havailable, hlt, bind, Except.bind, pure, Except.pure, Run.enter_eq, Run.closing]
  | accept h hc => simp [step, h.phase, reduce_of_takes h, hc]
  | @strand q needed head h hc hg =>
    obtain ⟨why, hwhy, -⟩ := p.exists_strand_eq r r.stack.top (r.pop needed).stack.top head
    simp [step, h.phase, reduce_of_takes h, hc, hg, hwhy, bind, Except.bind, Run.enter_eq, Run.closing]
  | cycle h hc hg hcyc =>
    rw [Run.replace] at hcyc
    simp [step, h.phase, reduce_of_takes h, hc, hg, hcyc, proceed, bind, Except.bind, pure, Except.pure,
      Run.enter_eq, Run.closing, Run.replace]
    rfl
  | reduce h hc hg hcyc hd =>
    rw [Run.replace] at hcyc
    have hd := decide_eq_ok.mpr ⟨Nat.succ_pos _, hd⟩
    rw [Run.replace] at hd
    simp [step, h.phase, reduce_of_takes h, hc, hg, hcyc, hd, proceed, bind, Except.bind, pure, Except.pure,
      Run.enter_eq, Run.replace]
  | done h =>
    cases hphase : r.phase <;> simp_all [step, Phase.isDone]

end Parser

end ShiftReduce
