import ShiftReduce.Proofs.Run.Completeness

/-!
# Rejections are right

Without conflicts a rejection for want of an action is raised at the first token with which no sentence goes
on (`parse_rejects`): a stream on which the input went on to a sentence would be accepted, and up to the
token the run would be the same.
-/

namespace ShiftReduce

open Event

namespace Parser

variable {g : Grammar} {options : Options} {checks : Bool} {r : Run} {es : List Event} {s : TokenStream}
  {why : Rejection} {n : Nat} {w : List Nat}

section

variable (hsmall : (Automaton.of options g).Small g) (hfree : (Automaton.of options g).conflicts = [])

include hsmall hfree

/-- No run on a sentence is rejected, but for a cycle. -/
theorem not_derives_of_rejected (h : (of options checks g).steps n (Run.start s) = .ok (r, es))
    (hr : r.phase = .rejected why) (hwhy : why.isInternal = false) (hw : g.Terminal w) (hs : s.Spells w) :
    ¬ g.Derives [g.start] w := by
  intro hder
  refine not_succeeds_of_rejected stateCount_pos h hr ?_ (exists_accepted_freely hsmall hfree hw hder hs)
  rintro n q x rfl
  exact absurd hwhy (by simp [Rejection.isInternal])

/-- A sentence that goes on from the rejected token would be read in the same way up to this token. -/
theorem not_derives_beyond {y : List Nat} (h : (of options checks g).steps n (Run.start s) = .ok (r, es))
    (hr : r.phase = .rejected why) (hwhy : why.isInternal = false) (ht : g.symbols.isTerminal r.current.symbol)
    (hend : ¬ r.current.isEnd) (hy : g.Terminal y) :
    ¬ g.Derives [g.start] (shiftedSymbols es ++ r.current.symbol :: y) := by
  have hsound := Run.sound_of_steps hsmall h
  rcases Run.pending_of_steps hsmall h (by simp [hr]) with hpending | ⟨-, heof, -⟩
  · have hsupply : Run.start s = (Run.start ⟨shifted es ++ [r.current]⟩).supply r.stream.pending := by
      obtain ⟨ts⟩ := s
      obtain rfl : ts = _ := hpending
      simp [Run.start, Run.supply]
    rw [hsupply] at h
    obtain ⟨r', hr', h'⟩ := steps_supply h (Nat.le_refl _) (fun _ => hend) fun t ht => (hsound.inner t ht).2
    have hphase : r'.phase = .rejected why := (congrArg Run.phase hr').symm.trans hr
    have hterminal : g.Terminal (r.current.symbol :: y) := (Grammar.Terminal.singleton ht).append hy
    have hy' := h' (y.map fun x => ⟨x, ""⟩)
    refine not_derives_of_rejected hsmall hfree hy' hphase hwhy (hsound.terminal.append hterminal) (.inl ?_)
    simp [Run.start, shiftedSymbols, Function.comp_def]
  · rw [heof] at hend
    exact absurd rfl hend

/-- At its end the stream spells what is shifted. -/
theorem not_derives_shifted (h : (of options checks g).steps n (Run.start s) = .ok (r, es))
    (hr : r.phase = .rejected why) (hwhy : why.isInternal = false) (hend : r.current.isEnd)
    (hmore : ¬ r.stream.hasMore) : ¬ g.Derives [g.start] (shiftedSymbols es) := by
  have hterminal := (Run.sound_of_steps hsmall h).terminal
  have hnil : r.stream.pending = [] := by simpa [TokenStream.hasMore] using hmore
  have hsym : r.current.symbol = endId := by simpa [Token.isEnd] using hend
  refine not_derives_of_rejected hsmall hfree h hr hwhy hterminal ?_
  rcases Run.pending_of_steps hsmall h (by simp [hr]) with hpending | ⟨hpending, -, -⟩
  · rw [hnil] at hpending
    exact .inr (by simp [hpending, shiftedSymbols, hsym])
  · exact .inl (by rw [hpending]; rfl)

end

/-- What is shifted and the token that finds no action begin no sentence; at the end of the stream what is
shifted is no sentence. -/
theorem parse_rejects (hsmall : (Automaton.of options g).Small g) (hfree : (Automaton.of options g).conflicts = [])
    (h : (of options checks g).parse s = .ok (r, es)) (hr : r.phase = .rejected why)
    (hwhy : why.isInternal = false) :
    (g.symbols.isTerminal r.current.symbol → ¬ r.current.isEnd → ∀ y, g.Terminal y →
      ¬ g.Derives [g.start] (shiftedSymbols es ++ r.current.symbol :: y)) ∧
    (r.current.isEnd → ¬ r.stream.hasMore → ¬ g.Derives [g.start] (shiftedSymbols es)) := by
  obtain ⟨-, n, h⟩ := finish_eq_ok.mp h
  constructor
  · intro ht hend y hy
    exact not_derives_beyond hsmall hfree h hr hwhy ht hend hy
  · intro hend hmore
    exact not_derives_shifted hsmall hfree h hr hwhy hend hmore

theorem parse_rejects_nested : ∃ r es,
    (of ⟨.slr, .shift, .first⟩ true .nested).parse (.ofSymbols [1, 2, 2]) = .ok (r, es) ∧
      r.phase = .rejected (.noAction 3 2 "2") ∧
      ∀ y, Grammar.nested.Terminal y → ¬ Grammar.nested.Derives [3] ([1, 2] ++ 2 :: y) := by
  have hrun : ((of ⟨.slr, .shift, .first⟩ true .nested).steps 7 (Run.start (.ofSymbols [1, 2, 2]))).map
      (fun o => (o.1.phase.isDone, o.1.phase, o.1.current, shiftedSymbols o.2))
      = .ok (true, .rejected (.noAction 3 2 "2"), ⟨2, "2"⟩, [1, 2]) := by decide +kernel
  obtain ⟨r, es, h, hview⟩ := exists_finish_of_map_eq_ok hrun
  obtain ⟨hphase, hcurrent, hshifted⟩ : r.phase = .rejected (.noAction 3 2 "2") ∧
      r.current = ⟨2, "2"⟩ ∧ shiftedSymbols es = [1, 2] := by simpa using hview
  refine ⟨r, es, h, hphase, ?_⟩
  have hrejects := (parse_rejects Automaton.small_nested (by decide +kernel) h hphase rfl).1
  rw [hcurrent, hshifted] at hrejects
  exact hrejects (by decide) (by decide)

end Parser

end ShiftReduce
