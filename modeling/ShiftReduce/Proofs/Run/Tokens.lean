import ShiftReduce.Proofs.Run.Steps
import ShiftReduce.Proofs.Token.Stream

/-!
# What becomes of the tokens

The events of a run name the tokens it has shifted and the productions it has reduced by. Whatever the
tables, the tokens shifted and the one held are those that were read from the stream (`steps_draw`), and
what the stream holds behind them has no part in the steps before it is read (`steps_supply`).
-/

namespace ShiftReduce

namespace Event

def shifted (es : List Event) : List Token :=
  es.filterMap fun e => if e.action = .shift then some ⟨e.symbol, e.text⟩ else none

def shiftedSymbols (es : List Event) : List Nat :=
  (shifted es).map (·.symbol)

/-- The productions that are reduced by, in order; the last one of an accepted run is not recorded. -/
def reduced (es : List Event) : List Nat :=
  es.filterMap fun e =>
    match e.action with
    | .reduce q => some q
    | _ => none

/-- The event of a reduce. -/
def isReduce (e : Event) : Bool :=
  match e.action with
  | .reduce _ => true
  | _ => false

variable (r : Run) (es es' : List Event)

@[simp] theorem shifted_nil : shifted [] = [] := rfl

@[simp] theorem reduced_nil : reduced [] = [] := rfl

@[simp] theorem shiftedSymbols_nil : shiftedSymbols [] = [] := rfl

@[simp] theorem shifted_append : shifted (es ++ es') = shifted es ++ shifted es' :=
  List.filterMap_append

@[simp] theorem reduced_append : reduced (es ++ es') = reduced es ++ reduced es' :=
  List.filterMap_append

@[simp] theorem shiftedSymbols_append : shiftedSymbols (es ++ es') = shiftedSymbols es ++ shiftedSymbols es' := by
  simp [shiftedSymbols]

@[simp] theorem shifted_closing (phase : Phase) : shifted (r.closing phase) = [] := by
  cases phase <;> rfl

@[simp] theorem reduced_closing (phase : Phase) : reduced (r.closing phase) = [] := by
  cases phase <;> rfl

@[simp] theorem shiftedSymbols_closing (phase : Phase) : shiftedSymbols (r.closing phase) = [] := by
  cases phase <;> rfl

@[simp] theorem shifted_cons (a : Action) :
    shifted (r.event a :: es) = if a = .shift then r.current :: shifted es else shifted es := by
  cases a <;> rfl

@[simp] theorem shiftedSymbols_cons (a : Action) : shiftedSymbols (r.event a :: es) =
    if a = .shift then r.current.symbol :: shiftedSymbols es else shiftedSymbols es := by
  cases a <;> rfl

@[simp] theorem reduced_shift : reduced (r.event .shift :: es) = reduced es := rfl

@[simp] theorem reduced_reduce (q : Nat) : reduced (r.event (.reduce q) :: es) = q :: reduced es := rfl

@[simp] theorem reduced_accept : reduced (r.event .accept :: es) = reduced es := rfl

end Event

namespace Run

/-- The token that is read and not shifted. -/
def held (r : Run) : List Token :=
  match r.phase with
  | .reading => []
  | _ => [r.current]

/-- The run with some tokens behind those of its stream. -/
def supply (r : Run) (ts : List Token) : Run :=
  { r with stream := ⟨r.stream.pending ++ ts⟩ }

theorem held_of_ne {r : Run} (h : r.phase ≠ .reading) : r.held = [r.current] := by
  cases hp : r.phase <;> simp_all [held]

end Run

namespace Parser

open Event

variable {p : Parser} {n : Nat} {r r' : Run} {es es' : List Event} {s : TokenStream}

/-- A step reads the next token, or it leaves the stream alone and shifts or keeps the token it has. -/
theorem Effect.tokens (he : p.Effect r r' es) :
    r.phase = .reading ∧ shifted es ++ r'.held = [r.stream.next.1] ∧ r'.stream = r.stream.next.2 ∨
      r.phase ≠ .reading ∧ shifted es ++ r'.held = r.held ∧ r'.stream = r.stream := by
  cases he with
  | read hp _ hd =>
    refine .inl ⟨hp, ?_, rfl⟩
    rw [shifted_closing, Run.held_of_ne hd.ne_reading]
    rfl
  | shift hp => exact .inr ⟨by simp [hp], by simp [Run.held, Run.push, hp], rfl⟩
  | underflow hp => exact .inr ⟨by simp [hp], by simp [Run.held, hp], rfl⟩
  | accept ht => exact .inr ⟨ht.ne_reading, by simp [Run.held, ht.phase], rfl⟩
  | @strand q needed head ht =>
    obtain ⟨why, hwhy, -⟩ := p.exists_strand_eq r r.stack.top (r.pop needed).stack.top head
    refine .inr ⟨ht.ne_reading, ?_, rfl⟩
    rw [hwhy, Run.held_of_ne ht.ne_reading]
    simp [Run.held, Run.pop]
  | cycle ht => exact .inr ⟨ht.ne_reading, by simp [Run.held, Run.replace, Run.pop, Run.push, ht.phase], rfl⟩
  | reduce ht _ _ _ hd =>
    refine .inr ⟨ht.ne_reading, ?_, rfl⟩
    rw [Run.held_of_ne hd.ne_reading, Run.held_of_ne ht.ne_reading]
    simp [Run.mark, Run.replace, Run.pop, Run.push]
  | done h => exact .inr ⟨fun hp => by simp [hp, Phase.isDone] at h, rfl, rfl⟩

/-- How many of the first `n` steps from `r` read a token. -/
def reads (p : Parser) (r : Run) (n : Nat) : Nat :=
  (List.range n).countP fun i =>
    match p.steps i r with
    | .ok (r', _) => r'.phase = .reading
    | .error _ => false

theorem reads_succ (h : p.steps n r = .ok (r', es)) :
    p.reads r (n + 1) = p.reads r n + if r'.phase = .reading then 1 else 0 := by
  simp [reads, List.range_succ, h, List.countP_cons]

theorem steps_draw (h : p.steps n (Run.start s) = .ok (r, es)) :
    s.draw (p.reads (Run.start s) n) = (shifted es ++ r.held, r.stream) := by
  induction n generalizing r es with
  | zero =>
    obtain ⟨rfl, rfl⟩ := Prod.mk.inj (Except.ok.inj h)
    rfl
  | succ n ih =>
    obtain ⟨r₁, es₁, es₂, h₁, hs, rfl⟩ := Machine.steps_succ_eq_ok.mp h
    have hdraw := ih h₁
    rw [reads_succ h₁, shifted_append, List.append_assoc]
    rcases (effect_of_step hs).tokens with ⟨hp, htokens, hstream⟩ | ⟨hp, htokens, hstream⟩
    · rw [Run.held, hp, List.append_nil] at hdraw
      rw [if_pos hp, htokens, hstream]
      exact TokenStream.draw_succ hdraw
    · rw [if_neg hp, htokens, hstream]
      exact hdraw

/-- The tokens shifted and the one held are those that the stream has handed out. -/
theorem steps_gives (h : p.steps n (Run.start s) = .ok (r, es)) : s.Gives (shifted es ++ r.held) r.stream := by
  have hgives := s.gives_draw (p.reads (Run.start s) n)
  rwa [steps_draw h] at hgives

/-- A step that leaves the tokens behind the stream alone takes place with any other tokens in their stead. -/
theorem Effect.supply {ts : List Token} (he : p.Effect (r.supply ts) r' es)
    (hlen : ts.length ≤ r'.stream.pending.length) (hend : r'.phase ≠ .reading → ¬ r'.current.isEnd) :
    ∃ r'' : Run, r' = r''.supply ts ∧ ∀ us, p.Effect (r.supply us) (r''.supply us) es := by
  -- a reduce looks at the stream only where the current token is the end
  have hopen : ¬ r.current.isEnd → ∀ us head needed, ¬ p.completes (r.supply us) head needed := by
    intro hcur us head needed hc
    simp only [completes, Bool.and_eq_true] at hc
    exact hcur hc.1.1.2
  cases he with
  | @read phase h hs hd =>
    obtain ⟨⟨_ | ⟨u, us₀⟩⟩, stack, current, phase', seen, readDepth⟩ := r
    · rcases ts with - | ⟨t, ts⟩
      · exact absurd rfl (hend hd.ne_reading)
      · exact absurd hlen (Nat.not_succ_le_self ts.length)
    · exact ⟨{ Run.read ⟨⟨u :: us₀⟩, stack, current, phase', seen, readDepth⟩ with phase := phase }, rfl,
        fun us => .read (r := Run.supply ⟨⟨u :: us₀⟩, stack, current, phase', seen, readDepth⟩ us) h hs
          (hd.congr rfl rfl)⟩
  | shift h => exact ⟨{ r.push _ with phase := .reading }, rfl, fun us => .shift (r := r.supply us) h⟩
  | @underflow q needed head h hn hh hs hlt =>
    exact ⟨{ r with phase := .rejected (.stackUnderflow q needed r.stack.height) }, rfl, fun us =>
      .underflow (r := r.supply us) h hn hh hs hlt⟩
  | accept h hc => exact absurd hc (hopen (hend (by simp)) ts _ _)
  | @strand q needed head h hc hg =>
    obtain ⟨why, hwhy, -⟩ := p.exists_strand_eq (r.supply ts) (r.supply ts).stack.top ((r.supply ts).pop needed).stack.top head
    rw [hwhy] at hend
    have hc := fun us => hopen (hend (by simp)) us head needed
    exact ⟨{ r.pop needed with phase := p.strand r r.stack.top (r.pop needed).stack.top head }, rfl, fun us =>
      .strand ⟨h.phase, h.length, h.head, h.depth⟩ (hc us) hg⟩
  | @cycle q needed head m h hc hg hcyc =>
    have hc := fun us => hopen (hend (by simp)) us head needed
    exact ⟨{ r.replace needed m with phase := .rejected (.reduceCycle m q r.current.symbol) }, rfl, fun us =>
      .cycle ⟨h.phase, h.length, h.head, h.depth⟩ (hc us) hg hcyc⟩
  | @reduce q needed head m phase h hc hg hcyc hd =>
    have hc := fun us => hopen (hend hd.ne_reading) us head needed
    exact ⟨{ (r.replace needed m).mark m with phase := phase }, rfl, fun us =>
      .reduce ⟨h.phase, h.length, h.head, h.depth⟩ (hc us) hg hcyc (hd.congr rfl rfl)⟩
  | done h => exact ⟨r, rfl, fun us => .done h⟩

theorem Effect.pending_le (he : p.Effect r r' es) : r'.stream.pending.length ≤ r.stream.pending.length := by
  cases he with
  | read =>
    obtain ⟨⟨ts⟩, stack, current, phase', seen, readDepth⟩ := r
    cases ts with
    | nil => exact Nat.le_refl _
    | cons t ts => exact Nat.le_succ _
  | _ => exact Nat.le_refl _

/-- Steps that leave the tokens behind the stream alone and do not come to its end are taken with any other
tokens in their stead. -/
theorem steps_supply {ts : List Token} (h : p.steps n (r.supply ts) = .ok (r', es))
    (hlen : ts.length ≤ r'.stream.pending.length) (hend : r'.phase ≠ .reading → ¬ r'.current.isEnd)
    (hshift : ∀ t ∈ shifted es, ¬ t.isEnd) :
    ∃ r'' : Run, r' = r''.supply ts ∧ ∀ us, p.steps n (r.supply us) = .ok (r''.supply us, es) := by
  induction n generalizing r' es with
  | zero =>
    obtain ⟨rfl, rfl⟩ := Prod.mk.inj (Except.ok.inj h)
    exact ⟨r, rfl, fun us => rfl⟩
  | succ n ih =>
    obtain ⟨r₁, es₁, es₂, h₁, hs, rfl⟩ := Machine.steps_succ_eq_ok.mp h
    have he := effect_of_step hs
    rw [shifted_append] at hshift
    have hend₁ : r₁.phase ≠ .reading → ¬ r₁.current.isEnd := by
      intro hne
      cases he with
      | read hp => exact absurd hp hne
      | shift => exact hshift _ (List.mem_append_right _ List.mem_cons_self)
      | @strand q needed head =>
        obtain ⟨why, hwhy, -⟩ := p.exists_strand_eq r₁ r₁.stack.top (r₁.pop needed).stack.top head
        rw [hwhy] at hend
        exact hend (by simp)
      | reduce _ _ _ _ hd => exact hend hd.ne_reading
      | done => exact hend hne
      | _ => exact hend (by simp)
    obtain ⟨r₁', rfl, h₁'⟩ := ih h₁ (Nat.le_trans hlen he.pending_le) hend₁
      fun t ht => hshift t (List.mem_append_left _ ht)
    obtain ⟨r'', rfl, he'⟩ := he.supply hlen hend
    exact ⟨r'', rfl, fun us => Machine.steps_succ (h₁' us) (step_of_effect (he' us))⟩

end Parser

end ShiftReduce
