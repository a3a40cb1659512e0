import ShiftReduce.Proofs.Automaton.Origin
import ShiftReduce.Proofs.Run.Soundness

/-!
# The tables of a grammar are never to blame

A reduce over the tables of a grammar finds its right-hand side on the stack and, in the state below, the goto
of its head. The one goto that may be missing is that of the start symbol at the bottom of the stack
(`Stands.bottom_of_stranded`), behind a complete sentence. So no run is rejected for a missing goto or for a
stack that is too low.
-/

namespace ShiftReduce

/-- What wrong tables alone can bring about. -/
def Rejection.blamesTables : Rejection → Bool
  | missingGoto .. | stackUnderflow .. => true
  | noAction .. | lookaheadMismatch .. | reduceCycle .. => false

namespace Parser

theorem Decides.not_blamesTables {p : Parser} {r : Run} {phase : Phase} {why : Rejection} (hd : p.Decides r phase)
    (h : phase = .rejected why) : ¬ why.blamesTables := by
  cases hd with
  | refuse =>
    obtain rfl := Phase.rejected.inj h
    exact Bool.false_ne_true
  | mismatch =>
    obtain rfl := Phase.rejected.inj h
    exact Bool.false_ne_true
  | _ => cases h

end Parser

namespace Run

variable {g : Grammar} {options : Options} {checks : Bool} {r r' : Run} {es es' : List Event} {q needed head : Nat}

section

variable (hsmall : (Automaton.of options g).Small g)

include hsmall

theorem Stands.takes (h : r.Stands g (Automaton.of options g) es) (hphase : r.phase = .reducing q)
    (hn : (Parser.of options checks g).tables.length q = .ok needed)
    (hh : (Parser.of options checks g).tables.head q = .ok head) :
    (Parser.of options checks g).Takes r q needed head := by
  obtain ⟨xs, hpath, -⟩ := h.path
  obtain ⟨p, before, hq, -, rfl, -⟩ := hpath.reduce (h.reducing q hphase)
  have hneeded : needed = p.rhs.length := Except.ok.inj (hn.symm.trans (Tables.length_of hsmall hq))
  refine ⟨hphase, hn, hh, ?_⟩
  rw [hneeded, Stack.depth_eq, hpath.length_eq, List.length_append, List.length_reverse]
  exact Nat.lt_succ_of_le (Nat.le_add_right _ _)

/-- Without a goto state 0 alone is left on the stack, and the start was reduced. -/
theorem Stands.bottom_of_stranded (h : r.Stands g (Automaton.of options g) es)
    (ht : (Parser.of options checks g).Takes r q needed head)
    (hg : (Parser.of options checks g).tables.goto.lookup (r.pop needed).stack.top head = .ok none) :
    (r.pop needed).stack.states = [0] ∧ head = g.start := by
  obtain ⟨xs, hpath, -⟩ := h.path
  obtain ⟨p, before, hq, hi, -, -⟩ := hpath.reduce (h.reducing q ht.phase)
  obtain ⟨rfl, rfl⟩ := ht.eq_of hsmall hq
  rcases hpath.exists_goto hq hi with hbottom | ⟨m, hm⟩
  · exact hbottom
  · rw [Parser.goto_lookup_of hsmall checks hq] at hg
    have hnone := Except.ok.inj hg
    change (Automaton.of options g).transition? ((r.stack.states.drop p.rhs.length).headD 0) p.lhs = none at hnone
    rw [hm] at hnone
    cases hnone

theorem Sound.not_blamesTables (h : r.Sound g (Automaton.of options g) es)
    (hr : ∀ why, r.phase = .rejected why → ¬ why.blamesTables)
    (he : (Parser.of options checks g).Effect r r' es') : ∀ why, r'.phase = .rejected why → ¬ why.blamesTables := by
  intro why hwhy
  cases he with
  | read _ _ hd => exact hd.not_blamesTables hwhy
  | shift => cases hwhy
  | underflow hphase hn hh _ hlt =>
    have hstands := h.stands (by simp [hphase, Phase.isDone])
    exact absurd (hstands.takes hsmall hphase hn hh).height (Nat.not_le.mpr hlt)
  | accept => cases hwhy
  | strand ht _ hg =>
    obtain ⟨-, rfl⟩ := (h.stands ht.not_isDone).bottom_of_stranded hsmall ht hg
    have hstart : g.start = (Parser.of options checks g).tables.start.toNat := (Tables.start_of hsmall).symm
    rw [Parser.strand, if_pos hstart] at hwhy
    obtain rfl := Phase.rejected.inj hwhy
    exact Bool.false_ne_true
  | cycle =>
    obtain rfl := Phase.rejected.inj hwhy
    exact Bool.false_ne_true
  | reduce _ _ _ _ hd => exact hd.not_blamesTables hwhy
  | done => exact hr why hwhy

theorem not_blamesTables_of_steps {s : TokenStream} {n : Nat} {why : Rejection}
    (h : (Parser.of options checks g).steps n (start s) = .ok (r, es)) (hr : r.phase = .rejected why) :
    ¬ why.blamesTables := by
  have hboth : r.Sound g (Automaton.of options g) es ∧ ∀ why, r.phase = .rejected why → ¬ why.blamesTables := by
    refine Machine.steps_induction (I := fun r es => r.Sound g (Automaton.of options g) es ∧
      ∀ why, r.phase = .rejected why → ¬ why.blamesTables) ⟨sound_start s, ?_⟩ ?_ h
    · intro why hwhy
      cases hwhy
    · intro r₁ r₂ es₁ es₂ h₁ hs
      have he := Parser.effect_of_step hs
      exact ⟨h₁.1.effect hsmall he, h₁.1.not_blamesTables hsmall h₁.2 he⟩
  exact hboth.2 why hr

end

end Run

namespace Parser

variable {g : Grammar} {options : Options}

/-- Runs over the tables of a grammar end without blaming the tables. At every time a reduce that is next has
its right-hand side on the stack, and if it then finds no goto, state 0 alone is left and its head is the start. -/
theorem parse_blames_no_tables (hsmall : (Automaton.of options g).Small g) (checks : Bool) (s : TokenStream) :
    (∃ r es, (of options checks g).parse s = .ok (r, es) ∧ r.phase.isDone ∧
      ∀ why, r.phase = .rejected why → ¬ why.blamesTables) ∧
    ∀ n, ∃ r es, (of options checks g).steps n (Run.start s) = .ok (r, es) ∧
      (∀ why, r.phase = .rejected why → ¬ why.blamesTables) ∧
      ∀ q needed head, r.phase = .reducing q → (of options checks g).tables.length q = .ok needed →
        (of options checks g).tables.head q = .ok head → ∃ stack below,
          r.stack.drop needed = .ok stack ∧ stack.peek = .ok below ∧
          ((of options checks g).tables.goto.lookup below head = .ok none → stack.toList = [0] ∧ head = g.start) := by
  constructor
  · obtain ⟨n, r, es, h, hparse, hdone⟩ :=
      exists_parse (p := of options checks g) (ending_of hsmall) (Tables.fits_of hsmall).total s
    exact ⟨r, es, hparse, hdone, fun _ => Run.not_blamesTables_of_steps hsmall h⟩
  · intro n
    obtain ⟨r, es, h, hsound⟩ := Run.exists_steps_sound hsmall checks s n
    refine ⟨r, es, h, fun _ => Run.not_blamesTables_of_steps hsmall h, fun q needed head hphase hn hh => ?_⟩
    have hstands := hsound.stands (by simp [hphase, Phase.isDone])
    have htakes := hstands.takes hsmall hphase hn hh
    have hdrop : r.stack.drop needed = .ok (r.pop needed).stack :=
      Stack.drop_eq_ok.mpr ⟨Nat.le_of_lt htakes.depth, rfl⟩
    have hbelow : (r.pop needed).stack.peek = .ok (r.pop needed).stack.top :=
      Stack.peek_eq_ok.mpr ⟨Nat.sub_pos_of_lt htakes.depth, rfl⟩
    refine ⟨_, _, hdrop, hbelow, fun hg => ?_⟩
    obtain ⟨hbottom, hstart⟩ := hstands.bottom_of_stranded hsmall htakes hg
    exact ⟨by rw [Stack.toList, hbottom]; rfl, hstart⟩

/-- `a b` is a sentence and more comes behind it. -/
theorem parse_blames_no_tables_nested : ∃ r es,
    (of ⟨.slr, .shift, .first⟩ false .nested).steps 6 (Run.start (.ofSymbols [1, 2, 1])) = .ok (r, es) ∧
      r.phase = .reducing 0 ∧ r.stack.toList = [0, 1, 2, 3] ∧ ∃ stack below, r.stack.drop 3 = .ok stack ∧
        stack.peek = .ok below ∧ (of ⟨.slr, .shift, .first⟩ false .nested).tables.goto.lookup below 3 = .ok none ∧
        stack.toList = [0] := by
  have hrun : ((of ⟨.slr, .shift, .first⟩ false .nested).steps 6 (Run.start (.ofSymbols [1, 2, 1]))).map
      (fun o => (o.1.phase, o.1.stack.toList, (o.1.stack.drop 3).bind Stack.peek)) =
      .ok (.reducing 0, [0, 1, 2, 3], .ok 0) := by decide +kernel
  obtain ⟨r, es, h, hview⟩ := exists_of_map_eq_ok hrun
  obtain ⟨hphase, hview⟩ := Prod.mk.inj hview
  obtain ⟨hstack, hzero⟩ := Prod.mk.inj hview
  obtain ⟨r', es', h', -, hreduce⟩ := (parse_blames_no_tables Automaton.small_nested false (.ofSymbols [1, 2, 1])).2 6
  obtain ⟨rfl, rfl⟩ := Prod.mk.inj (Except.ok.inj (h.symm.trans h'))
  obtain ⟨stack, below, hdrop, hbelow, hbottom⟩ := hreduce 0 3 3 hphase (by decide +kernel) (by decide +kernel)
  rw [hdrop] at hzero
  obtain rfl := Except.ok.inj (hbelow.symm.trans hzero)
  have hgoto : (of ⟨.slr, .shift, .first⟩ false .nested).tables.goto.lookup 0 3 = .ok none := by decide +kernel
  exact ⟨r, es, h, hphase, hstack, stack, 0, hdrop, hbelow, hgoto, (hbottom hgoto).1⟩

end Parser

end ShiftReduce
