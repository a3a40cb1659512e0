import Mathlib.Data.Finset.Prod
import ShiftReduce.Proofs.Run.Finish
import ShiftReduce.Proofs.Run.Tokens
import ShiftReduce.Proofs.Run.Total

/-!
# Runs end

Tables whose gotos lead to states and that never shift the end token finish every run. Between two tokens a
run makes different pairs of depth and state by its reduces, and the stack grows by a bounded number of
states, so there is a bound on all depths and every step lowers the `potential`: reads that are left count
most, then pairs that are left. So a run is done after at most so many steps (`isDone_of_steps`), and it is
finished (`exists_finish`).
-/

namespace ShiftReduce

/-- Gotos lead to states, and the end token is not shifted. -/
structure Tables.Ending (t : Tables) : Prop where
  goto_lt : ∀ n x m, t.goto.lookup n x = .ok (some m) → m < t.stateCount
  shift_end : ∀ n m, t.shift.lookup n endId ≠ .ok (some m)

theorem Tables.Fits.ending {t : Tables} (h : t.Fits) (hend : t.EndFree) : t.Ending where
  goto_lt _ _ _ hm := h.goto_lt hm
  shift_end _ _ := hend.lookup_ne

/-- The pairs below some bounds that were not seen. -/
def Seen.left (s : Seen) (depths states : Nat) : Finset (Nat × Nat) :=
  (Finset.range depths ×ˢ Finset.range states).filter fun e => ¬ s.contains e.1 e.2

namespace Seen

variable {s : Seen} {depths states d t : Nat}

theorem card_left_le (s : Seen) (depths states : Nat) : (s.left depths states).card ≤ depths * states := by
  refine (Finset.card_filter_le _ _).trans ?_
  rw [Finset.card_product, Finset.card_range, Finset.card_range]

theorem card_left_insert_lt (hd : d < depths) (ht : t < states) (hnew : ¬ s.contains d t) :
    ((s.insert d t).left depths states).card < (s.left depths states).card := by
  refine Finset.card_lt_card (Finset.ssubset_iff_of_subset ?_ |>.mpr ⟨(d, t), ?_, ?_⟩)
  · intro e he
    rw [left, Finset.mem_filter] at he ⊢
    refine ⟨he.1, fun hc => he.2 ?_⟩
    exact (s.contains_insert).mpr (.inr hc)
  · rw [left, Finset.mem_filter, Finset.mem_product, Finset.mem_range, Finset.mem_range]
    exact ⟨⟨hd, ht⟩, hnew⟩
  · rw [left, Finset.mem_filter]
    intro he
    exact he.2 ((s.contains_insert).mpr (.inl ⟨rfl, rfl⟩))

end Seen

namespace Run

variable {r : Run} {states depths : Nat}

/-- How often a run can still read, the end token for the last time. -/
def readsLeft (r : Run) : Nat :=
  match r.phase with
  | .reading => r.stream.pending.length + 1
  | _ => if r.current.isEnd then 0 else r.stream.pending.length + 1

/-- A bound on the steps of a run on a stack that stays below `depths`. -/
def potential (states depths : Nat) (r : Run) : Nat :=
  match r.phase with
  | .reading => r.readsLeft * (depths * states + 3)
  | .shifting _ => r.readsLeft * (depths * states + 3) + 1
  | .reducing _ => r.readsLeft * (depths * states + 3) + (r.seen.left depths states).card + 2
  | _ => 0

/-- The stack is low enough for what can still come. -/
def Low (states depths : Nat) (r : Run) : Prop :=
  match r.phase with
  | .reading => r.stack.depth + r.readsLeft * (states + 1) ≤ depths
  | .shifting _ => ¬ r.current.isEnd ∧ r.stack.depth ≤ r.readDepth + states ∧
      r.readDepth + (r.readsLeft + 1) * (states + 1) ≤ depths
  | .reducing _ => r.stack.depth ≤ r.readDepth + states ∧
      r.readDepth + (r.readsLeft + 1) * (states + 1) ≤ depths
  | _ => True

theorem readsLeft_of_ne (h : r.phase ≠ .reading) :
    r.readsLeft = if r.current.isEnd then 0 else r.stream.pending.length + 1 := by
  cases hp : r.phase <;> simp_all [readsLeft]

theorem potential_pos (states depths : Nat) (h : ¬ r.phase.isDone) : 0 < r.potential states depths := by
  rw [potential]
  cases hp : r.phase with
  | reading =>
    have hpos : 0 < r.readsLeft := by rw [readsLeft, hp]; exact Nat.succ_pos _
    exact Nat.mul_pos hpos (Nat.succ_pos _)
  | shifting m => exact Nat.succ_pos _
  | reducing q => exact Nat.succ_pos _
  | accepted => rw [hp] at h; exact absurd rfl h
  | rejected why => rw [hp] at h; exact absurd rfl h

theorem readsLeft_read {phase : Phase} (hp : r.phase = .reading) (hne : phase ≠ .reading) :
    readsLeft { r.read with phase := phase } + 1 ≤ r.readsLeft := by
  rw [readsLeft_of_ne hne, readsLeft, hp]
  obtain ⟨⟨ts⟩, stack, current, phase', seen, readDepth⟩ := r
  rcases ts with - | ⟨t, ts⟩
  · simp [read, TokenStream.next, Token.eof, Token.isEnd]
  · change (if t.isEnd then 0 else ts.length + 1) + 1 ≤ ts.length + 1 + 1
    split <;> omega

end Run

namespace Parser

open Run

variable {p : Parser} {r r' : Run} {es : List Event} {n depths : Nat} {s : TokenStream}

theorem Decides.not_isEnd {m : Nat} (ht : p.tables.Ending) (hd : p.Decides r (.shifting m)) :
    ¬ r.current.isEnd := by
  intro hend
  have hid : r.current.symbol = endId := by simpa [Token.isEnd] using hend
  cases hd with
  | shift h => exact ht.shift_end _ _ (hid ▸ h)

/-- What is decided on leaves the stack low and the potential small. -/
theorem Decides.potential_le {phase : Phase} {reads : Nat} (ht : p.tables.Ending) (hd : p.Decides r phase)
    (hdepth : r.stack.depth ≤ r.readDepth + p.tables.stateCount)
    (hreads : readsLeft { r with phase := phase } ≤ reads)
    (hroom : r.readDepth + (reads + 1) * (p.tables.stateCount + 1) ≤ depths) :
    Low p.tables.stateCount depths { r with phase := phase } ∧
      potential p.tables.stateCount depths { r with phase := phase } ≤
        reads * (depths * p.tables.stateCount + 3) + (r.seen.left depths p.tables.stateCount).card + 2 := by
  generalize p.tables.stateCount = states at *
  have hreads' := Nat.mul_le_mul_right (depths * states + 3) hreads
  have hroom' : r.readDepth + (readsLeft { r with phase := phase } + 1) * (states + 1) ≤ depths :=
    (Nat.add_le_add_left (Nat.mul_le_mul_right _ (Nat.add_le_add_right hreads 1)) _).trans hroom
  cases phase with
  | reading => exact absurd rfl hd.ne_reading
  | shifting m =>
    refine ⟨⟨Decides.not_isEnd (r := r) ht hd, hdepth, hroom'⟩, ?_⟩
    show readsLeft { r with phase := .shifting m } * (depths * states + 3) + 1 ≤ _
    omega
  | reducing q =>
    refine ⟨⟨hdepth, hroom'⟩, ?_⟩
    show readsLeft { r with phase := .reducing q } * (depths * states + 3) + (r.seen.left depths states).card + 2 ≤ _
    omega
  | accepted => exact ⟨trivial, Nat.zero_le _⟩
  | rejected why => exact ⟨trivial, Nat.zero_le _⟩

/-- A reduce that is not stopped leaves fewer pairs. -/
theorem Takes.potential_lt {q needed head m : Nat} {phase : Phase} (ht : p.tables.Ending)
    (h : p.Takes r q needed head) (hg : p.tables.goto.lookup (r.pop needed).stack.top head = .ok (some m))
    (hcyc : ¬ (r.replace needed m).isCycling p.tables.stateCount m)
    (hd : p.Decides ((r.replace needed m).mark m) phase) (hlow : r.Low p.tables.stateCount depths) :
    Low p.tables.stateCount depths { (r.replace needed m).mark m with phase := phase } ∧
      potential p.tables.stateCount depths { (r.replace needed m).mark m with phase := phase } <
        r.potential p.tables.stateCount depths := by
  simp only [Low, h.phase] at hlow
  obtain ⟨-, hroom⟩ := hlow
  obtain ⟨hdepth, hnew⟩ : (r.replace needed m).stack.depth ≤ r.readDepth + p.tables.stateCount ∧
      ¬ r.seen.contains (r.replace needed m).stack.depth m := by
    rw [isCycling, Bool.or_eq_true, not_or, decide_eq_true_eq] at hcyc
    exact ⟨Nat.le_of_not_lt hcyc.1, hcyc.2⟩
  have hreads : readsLeft { (r.replace needed m).mark m with phase := phase } ≤ r.readsLeft := by
    rw [readsLeft_of_ne hd.ne_reading, readsLeft_of_ne h.ne_reading]
    exact Nat.le_refl _
  obtain ⟨hlow', hle⟩ := hd.potential_le ht hdepth hreads hroom
  refine ⟨hlow', hle.trans_lt ?_⟩
  have hlt : (r.replace needed m).stack.depth < depths := by
    rw [Nat.succ_mul] at hroom
    omega
  have hcard := Seen.card_left_insert_lt hlt (ht.goto_lt _ _ _ hg) hnew
  simp only [potential, h.phase]
  exact Nat.add_lt_add_right (Nat.add_lt_add_left hcard _) 2

/-- Every step of a run that is not done keeps the stack low and lowers the potential. -/
theorem Effect.potential_lt (ht : p.tables.Ending) (he : p.Effect r r' es) (hnd : ¬ r.phase.isDone)
    (hlow : r.Low p.tables.stateCount depths) :
    r'.Low p.tables.stateCount depths ∧
      r'.potential p.tables.stateCount depths < r.potential p.tables.stateCount depths := by
  have hpos := potential_pos p.tables.stateCount depths hnd
  cases he with
  | @read phase hp _ hd =>
    obtain ⟨reads, hreads⟩ : ∃ reads, r.readsLeft = reads + 1 := ⟨r.stream.pending.length, by rw [readsLeft, hp]⟩
    have hread := readsLeft_read hp hd.ne_reading
    rw [hreads] at hread
    simp only [Low, hp, hreads] at hlow
    obtain ⟨hlow', hle⟩ := hd.potential_le ht (Nat.le_add_right _ _) (Nat.le_of_succ_le_succ hread) hlow
    refine ⟨hlow', hle.trans_lt ?_⟩
    have hcard := r.read.seen.card_left_le depths p.tables.stateCount
    simp only [potential, hp, hreads, Nat.succ_mul]
    omega
  | @shift m hp =>
    simp only [Low, hp] at hlow
    obtain ⟨hend, hdepth, hroom⟩ := hlow
    have hreads : r.readsLeft = r.stream.pending.length + 1 := by
      rw [readsLeft_of_ne (by simp [hp]), if_neg hend]
    simp only [Low, potential, hp, hreads] at hroom ⊢
    refine ⟨?_, Nat.lt_succ_of_le (Nat.le_refl _)⟩
    rw [Nat.succ_mul] at hroom
    change r.stack.depth + 1 + (r.stream.pending.length + 1) * (p.tables.stateCount + 1) ≤ depths
    omega
  | underflow => exact ⟨trivial, hpos⟩
  | accept => exact ⟨trivial, hpos⟩
  | @strand q needed head =>
    obtain ⟨why, hwhy, -⟩ := p.exists_strand_eq r r.stack.top (r.pop needed).stack.top head
    rw [hwhy]
    exact ⟨trivial, hpos⟩
  | cycle => exact ⟨trivial, hpos⟩
  | reduce h hc hg hcyc hd => exact h.potential_lt ht hg hcyc hd hlow
  | done hd => exact absurd hd hnd

theorem potential_of_steps (ht : p.tables.Ending) (hlow : r.Low p.tables.stateCount depths)
    (h : p.steps n r = .ok (r', es)) : r'.phase.isDone ∨ r'.Low p.tables.stateCount depths ∧
      r'.potential p.tables.stateCount depths + n ≤ r.potential p.tables.stateCount depths := by
  induction n generalizing r' es with
  | zero =>
    obtain ⟨rfl, rfl⟩ := Prod.mk.inj (Except.ok.inj h)
    exact .inr ⟨hlow, Nat.le_refl _⟩
  | succ n ih =>
    obtain ⟨r₁, es₁, es₂, h₁, hs, rfl⟩ := Machine.steps_succ_eq_ok.mp h
    by_cases hd : r₁.phase.isDone
    · rw [step_of_isDone hd] at hs
      obtain ⟨rfl, -⟩ := Prod.mk.inj (Except.ok.inj hs)
      exact .inl hd
    · obtain hd' | ⟨hlow₁, hle⟩ := ih h₁
      · exact absurd hd' hd
      obtain ⟨hlow', hlt⟩ := (effect_of_step hs).potential_lt ht hd hlow₁
      exact .inr ⟨hlow', by omega⟩

/-- A run that is low under any bound is done after so many steps as its potential tells. -/
theorem isDone_of_steps (ht : p.tables.Ending) (hlow : r.Low p.tables.stateCount depths)
    (h : p.steps (r.potential p.tables.stateCount depths) r = .ok (r', es)) : r'.phase.isDone := by
  obtain hd | ⟨-, hle⟩ := potential_of_steps ht hlow h
  · exact hd
  by_contra hd
  have hpos := potential_pos p.tables.stateCount depths hd
  omega

theorem low_start (states : Nat) (s : TokenStream) :
    (start s).Low states (1 + (s.pending.length + 1) * (states + 1)) :=
  Nat.le_refl _

/-- A run that meets no fault is finished by its steps. -/
theorem exists_finish (ht : p.tables.Ending) (htotal : p.tables.Total) (hasked : r.Asked p.tables)
    (hlow : r.Low p.tables.stateCount depths) :
    ∃ n r' es, p.steps n r = .ok (r', es) ∧ p.finish r = .ok (r', es) ∧ r'.phase.isDone := by
  obtain ⟨r', es, h, -⟩ := exists_steps_total htotal hasked (r.potential p.tables.stateCount depths)
  have hdone := isDone_of_steps ht hlow h
  exact ⟨_, r', es, h, finish_of_steps h hdone, hdone⟩

theorem exists_parse (ht : p.tables.Ending) (htotal : p.tables.Total) (s : TokenStream) :
    ∃ n r es, p.steps n (start s) = .ok (r, es) ∧ p.parse s = .ok (r, es) ∧ r.phase.isDone :=
  exists_finish ht htotal (asked_start p.tables s) (low_start p.tables.stateCount s)

end Parser

end ShiftReduce
