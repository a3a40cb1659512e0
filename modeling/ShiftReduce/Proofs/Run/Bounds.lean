import ShiftReduce.Proofs.Run.Total
import ShiftReduce.Proofs.Table.Binary

/-!
# Runs stay inside of their tables

Tables that were read from bytes are consistent, whoever wrote the bytes. A run over them puts states of the tables
on its stack, keeps state 0 below them (`Stack.Within`) and goes on with states and productions of the tables only
(`Run.Inside`), on any tokens. So each list of the tables has a place for what it is asked for (`Tables.HasState`,
`Tables.HasProduction`), and no access of the tables or of the stack is a fault (`steps_inside`).
-/

namespace ShiftReduce

namespace Tables

/-- The lists that are asked for a state have a place for it. -/
structure HasState (t : Tables) (n : Nat) : Prop where
  shift : n < t.shift.offsets.length
  goto : n < t.goto.offsets.length
  reduce : n < t.reduce.length

/-- The lists that are asked for a production have a place for it, its bit row for all terminals. -/
structure HasProduction (t : Tables) (q : Nat) : Prop where
  head : q < t.heads.length
  length : q < t.lengths.length
  lookahead : ∀ x, t.isTerminal x → q * t.lookahead.wordsPerRow.toNat + x / 64 < t.lookahead.words.length

variable {t : Tables} {n m q x : Nat}

namespace Fits

theorem hasState (h : t.Fits) (hn : n < t.stateCount) : t.HasState n where
  shift := h.shift.count ▸ hn
  goto := h.goto.count ▸ hn
  reduce := hn

theorem hasProduction (h : t.Fits) (hq : q < t.productionCount) : t.HasProduction q where
  head := hq
  length := h.lengths ▸ hq
  lookahead x hx := by
    have hword : x / 64 < wordsFor t.terminalCount.toNat := by
      have hx : x < t.terminalCount.toNat := of_decide_eq_true hx
      rw [wordsFor]
      omega
    rw [h.width, h.words]
    calc q * wordsFor t.terminalCount.toNat + x / 64
        < q * wordsFor t.terminalCount.toNat + wordsFor t.terminalCount.toNat := Nat.add_lt_add_left hword _
      _ = (q + 1) * wordsFor t.terminalCount.toNat := (Nat.succ_mul ..).symm
      _ ≤ t.productionCount * wordsFor t.terminalCount.toNat := Nat.mul_le_mul_right _ hq
      _ = wordsFor t.terminalCount.toNat * t.productionCount := Nat.mul_comm ..

theorem shift_lt (h : t.Fits) (hm : t.shift.lookup n x = .ok (some m)) : m < t.stateCount := by
  obtain ⟨e, he, hx, rfl⟩ := Segments.mem_of_lookup hm
  exact (h.shift.inside e he x hx).2

end Fits

end Tables

/-- State 0 lies at the bottom of the stack, and all states on it are among the first ones. -/
structure Stack.Within (s : Stack) (states : Nat) : Prop where
  bottom : s.states.getLast? = some 0
  bound : ∀ n ∈ s.states, n < states

namespace Stack.Within

variable {s : Stack} {states n k : Nat}

theorem depth_pos (h : s.Within states) : 0 < s.depth := by
  rw [s.depth_eq, List.length_pos_iff]
  intro hnil
  simpa [hnil] using h.bottom

theorem push (h : s.Within states) (hn : n < states) : (s.push n).Within states where
  bottom := by rw [states_push, List.getLast?_cons, h.bottom, Option.getD_some]
  bound := List.forall_mem_cons.mpr ⟨hn, h.bound⟩

/-- What is left of a stack has its bottom, as long as anything is left. -/
theorem drop (h : s.Within states) (hk : k < s.depth) :
    (s.states.drop k).getLast? = some 0 ∧ ∀ n ∈ s.states.drop k, n < states := by
  rw [s.depth_eq] at hk
  exact ⟨by rw [List.getLast?_drop, if_neg (Nat.not_le.mpr hk), h.bottom],
    fun n hn => h.bound n (List.mem_of_mem_drop hn)⟩

theorem pop (h : s.Within states) (hk : k < s.depth) : (s.pop k).Within states :=
  ⟨(h.drop hk).1, (h.drop hk).2⟩

theorem lowest (h : s.Within states) : s.lowest.Within states :=
  have hk : s.depth - 1 < s.depth := Nat.sub_one_lt (Nat.ne_of_gt h.depth_pos)
  ⟨(h.drop hk).1, (h.drop hk).2⟩

end Stack.Within

/-- The states on the stack, and what the run goes on with, are those of the tables. -/
structure Run.Inside (t : Tables) (r : Run) : Prop where
  stack : r.stack.Within t.stateCount
  target : ∀ n, r.phase = .shifting n → n < t.stateCount
  production : ∀ q, r.phase = .reducing q → q < t.productionCount

namespace Parser

variable {p : Parser} {r r' : Run} {es : List Event} {phase : Phase}

theorem inside_start {t : Tables} (ht : t.Fits) (s : TokenStream) : (Run.start s).Inside t where
  stack := ⟨rfl, List.forall_mem_singleton.mpr (Nat.pos_of_ne_zero ht.states)⟩
  target := nofun
  production := nofun

theorem Decides.inside (hd : p.Decides r phase) (ht : p.tables.Fits) (hs : r'.stack.Within p.tables.stateCount) :
    Run.Inside p.tables { r' with phase := phase } where
  stack := hs
  target n hn := by
    cases hd with
    | shift h =>
      obtain rfl := Phase.shifting.inj hn
      exact ht.shift_lt h
    | _ => cases hn
  production q hq := by
    cases hd with
    | reduce _ hreduce _ =>
      obtain rfl := Phase.reducing.inj hq
      exact ht.lt_productionCount hreduce
    | _ => cases hq

theorem Effect.inside (he : p.Effect r r' es) (ht : p.tables.Fits) (h : r.Inside p.tables) : r'.Inside p.tables := by
  have hreplace : ∀ {q needed head m}, p.Takes r q needed head →
      p.tables.goto.lookup (r.pop needed).stack.top head = .ok (some m) →
      (r.replace needed m).stack.Within p.tables.stateCount :=
    fun htakes hgoto => (h.stack.pop htakes.depth).push (ht.goto_lt hgoto)
  cases he with
  | read _ _ hd => exact hd.inside ht h.stack
  | shift hphase => exact ⟨h.stack.push (h.target _ hphase), nofun, nofun⟩
  | underflow => exact ⟨h.stack, nofun, nofun⟩
  | accept => exact ⟨h.stack.lowest, nofun, nofun⟩
  | @strand q needed head htakes =>
    obtain ⟨why, hwhy, -⟩ := p.exists_strand_eq r r.stack.top (r.pop needed).stack.top head
    rw [hwhy]
    exact ⟨h.stack.pop htakes.depth, nofun, nofun⟩
  | cycle htakes _ hgoto => exact ⟨hreplace htakes hgoto, nofun, nofun⟩
  | reduce htakes _ hgoto _ hd => exact hd.inside ht (hreplace htakes hgoto)
  | done => exact h

/-- Over tables that bytes were read as, on any tokens and after any number of steps: no access of the tables or of
the stack has been a fault, state 0 lies at the bottom of the stack, and all that the tables can be asked for next is
in them, the states on the stack, the state that is shifted to and the production that is reduced. -/
theorem steps_inside {bytes rest : List UInt8} {t : Tables} (h : Tables.read bytes = .ok (t, rest)) :
    (∀ n q, t.reduce? n = some q → t.HasProduction q) ∧
    ∀ checks s n, ∃ r es, (Parser.mk t checks).steps n (Run.start s) = .ok (r, es) ∧
      r.stack.toList.head? = some 0 ∧ r.stack.toList.length = r.stack.depth ∧
      (∀ m ∈ r.stack.toList, m < t.stateCount ∧ t.HasState m) ∧
      (∀ m, r.phase = .shifting m → m < t.stateCount ∧ t.HasState m) ∧
      ∀ q, r.phase = .reducing q → t.HasProduction q := by
  have hfits := Tables.consistent_iff_fits.mp (Tables.consistent_of_read h)
  refine ⟨fun n q hq => hfits.hasProduction (hfits.lt_productionCount hq), fun checks s n => ?_⟩
  have ht : (Parser.mk t checks).tables.Fits := hfits
  obtain ⟨r, es, hsteps, hasked, hinside⟩ := Machine.exists_steps (I := fun r _ => r.Asked t ∧ r.Inside t)
    ⟨asked_start t s, inside_start hfits s⟩
    (fun r₁ r₂ es₁ es₂ hi hs => ⟨(effect_of_step hs).asked hi.1, (effect_of_step hs).inside ht hi.2⟩)
    (fun r₁ es₁ hi => by
      obtain ⟨r₂, es₂, he⟩ := exists_effect ht.total hi.1
      exact ⟨r₂, es₂, step_of_effect he⟩) n
  refine ⟨r, es, hsteps, ?_, r.stack.length_toList, fun m hm => ?_, fun m hm => ?_, fun q hq => ?_⟩
  · rw [Stack.toList, List.head?_reverse, hinside.stack.bottom]
  · have hlt := hinside.stack.bound m (List.mem_reverse.mp hm)
    exact ⟨hlt, hfits.hasState hlt⟩
  · exact ⟨hinside.target m hm, hfits.hasState (hinside.target m hm)⟩
  · exact hfits.hasProduction (hinside.production q hq)

/-- Consistent tables of no grammar. The row of state 1 is the tail of that of state 0, the end marks have states
beside them, one of which does not exist, and the production is longer than any stack is when it is asked for. -/
def overlapping : Tables where
  terminalCount := 2
  nonterminalCount := 1
  start := 2
  shift := ⟨[0, 1], [(1, 1), (1, 0), (absent, 7)]⟩
  goto := ⟨[0, absent], [(2, 1), (absent, 0)]⟩
  reduce := [absent, 0]
  heads := [2]
  lengths := [7]
  lookahead := ⟨1, [3]⟩
  shiftReduceConflicts := 0
  reduceReduceConflicts := 0

/-- A byte is left behind the tables, and the second token has the number of the end mark. The stack is too short for
the production, and the reduce is refused. -/
theorem steps_inside_overlapping : Tables.read (Tables.write overlapping ++ [0xFF]) = .ok (overlapping, [0xFF]) ∧
    (∃ r es, (Parser.mk overlapping false).steps 3 (Run.start (.ofSymbols [1, 0xFFFFFFFF])) = .ok (r, es) ∧
      r.phase = .reducing 0 ∧ overlapping.HasProduction 0 ∧ r.stack.depth < 7) ∧
    ∃ r es, (Parser.mk overlapping false).steps 4 (Run.start (.ofSymbols [1, 0xFFFFFFFF])) = .ok (r, es) ∧
      r.phase = .rejected (.stackUnderflow 0 7 1) ∧ r.stack.toList.length = 2 ∧ r.stack.toList.head? = some 0 ∧
      ∀ m ∈ r.stack.toList, m < 2 ∧ overlapping.HasState m := by
  have hread : Tables.read (Tables.write overlapping ++ [0xFF]) = .ok (overlapping, [0xFF]) := by decide +kernel
  have hrun : ((Parser.mk overlapping false).steps 3 (Run.start (.ofSymbols [1, 0xFFFFFFFF]))).map
      (fun o => (o.1.phase, o.1.stack.depth)) = .ok (.reducing 0, 2) := by decide +kernel
  have hrun' : ((Parser.mk overlapping false).steps 4 (Run.start (.ofSymbols [1, 0xFFFFFFFF]))).map
      (fun o => (o.1.phase, o.1.stack.depth)) = .ok (.rejected (.stackUnderflow 0 7 1), 2) := by decide +kernel
  obtain ⟨-, hsteps⟩ := steps_inside hread
  refine ⟨hread, ?_, ?_⟩
  · obtain ⟨r, es, h, -, -, -, -, hreduce⟩ := hsteps false (.ofSymbols [1, 0xFFFFFFFF]) 3
    rw [h] at hrun
    obtain ⟨hphase, hdepth⟩ := Prod.mk.inj (Except.ok.inj hrun)
    exact ⟨r, es, h, hphase, hreduce 0 hphase, hdepth ▸ by decide⟩
  · obtain ⟨r, es, h, hbottom, hlength, hstack, -⟩ := hsteps false (.ofSymbols [1, 0xFFFFFFFF]) 4
    rw [h] at hrun'
    obtain ⟨hphase, hdepth⟩ := Prod.mk.inj (Except.ok.inj hrun')
    exact ⟨r, es, h, hphase, hlength.trans hdepth, hbottom, hstack⟩

end Parser

end ShiftReduce
