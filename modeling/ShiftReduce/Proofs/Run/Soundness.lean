import ShiftReduce.Proofs.Run.Generated

/-!
# Soundness

At every time the stack of a run is a path of the automaton, and the symbols of the path derive the tokens
shifted so far by the reduces in reverse (`Stands`). This holds for all options, also where the automaton
has conflicts, since a reduce asks no more than a complete item. So the tokens shifted are always the
beginning of something that the start derives, and an accepted run has shifted a sentence.
-/

namespace ShiftReduce

open Event

namespace Run

/-- The run stands on a path whose symbols derive what has been shifted, and what it is to do next is there
in the state on top. -/
structure Stands (g : Grammar) (a : Automaton) (r : Run) (es : List Event) : Prop where
  path : ∃ xs, a.Path xs r.stack.states ∧ g.Rightmost (reduced es).reverse xs.reverse (shiftedSymbols es)
  shifting : ∀ m, r.phase = .shifting m → a.shift? g r.stack.top r.current.symbol = some m
  reducing : ∀ q, r.phase = .reducing q → a.reduce? r.stack.top = some q

/-- What holds of every run over the tables of a grammar. -/
structure Sound (g : Grammar) (a : Automaton) (r : Run) (es : List Event) : Prop where
  viable : ∃ rest, g.Derives [g.start] (shiftedSymbols es ++ rest)
  inner : ∀ t ∈ shifted es, g.symbols.isTerminal t.symbol ∧ ¬ t.isEnd
  stands : ¬ r.phase.isDone → r.Stands g a es
  accepted : r.phase = .accepted → (∃ q ∈ g.productionsOf g.start,
    g.Rightmost (q :: (reduced es).reverse) [g.start] (shiftedSymbols es)) ∧ r.current.isEnd ∧ ¬ r.stream.hasMore

variable {g : Grammar} {options : Options} {checks : Bool} {r r' : Run} {es es' : List Event}

theorem Stands.viable (h : r.Stands g (Automaton.of options g) es) :
    ∃ rest, g.Derives [g.start] (shiftedSymbols es ++ rest) := by
  obtain ⟨xs, hpath, hright⟩ := h.path
  obtain ⟨rest, hrest⟩ := hpath.viable
  exact ⟨rest, hrest.trans (hright.derives.append_right rest)⟩

/-- Before the next token is read the state on top is not asked for anything. -/
theorem Stands.of_reading {a : Automaton} {xs : List Nat} (hr : r.phase = .reading) (hpath : a.Path xs r.stack.states)
    (hright : g.Rightmost (reduced es).reverse xs.reverse (shiftedSymbols es)) : r.Stands g a es where
  path := ⟨xs, hpath, hright⟩
  shifting m hm := by
    rw [hr] at hm
    cases hm
  reducing q hq := by
    rw [hr] at hq
    cases hq

theorem sound_start (s : TokenStream) : (start s).Sound g (Automaton.of options g) [] := by
  have hstands : (start s).Stands g (Automaton.of options g) [] := .of_reading rfl .nil (.refl [])
  exact ⟨hstands.viable, by simp, fun _ => hstands, by simp [start]⟩

/-- Nothing is asked of a run that is rejected but what it has shifted before. -/
theorem Sound.reject {a : Automaton} {why : Rejection} (h : r.Sound g a es) (hr : r'.phase = .rejected why)
    (hes : shifted es' = []) : r'.Sound g a (es ++ es') where
  viable := by
    obtain ⟨rest, hrest⟩ := h.viable
    exact ⟨rest, by simpa [shiftedSymbols, hes] using hrest⟩
  inner := by
    rw [shifted_append, hes, List.append_nil]
    exact h.inner
  stands hd := by
    rw [hr] at hd
    exact absurd rfl hd
  accepted hacc := by
    rw [hr] at hacc
    cases hacc

section

variable (hsmall : (Automaton.of options g).Small g)

include hsmall

/-- The path stays what it is when a phase is decided on. -/
theorem Stands.of_decides {phase : Phase} {xs : List Nat} (hd : (Parser.of options checks g).Decides r phase)
    (hpath : (Automaton.of options g).Path xs r.stack.states)
    (hright : g.Rightmost (reduced es).reverse xs.reverse (shiftedSymbols es)) :
    Stands g (Automaton.of options g) { r with phase := phase } es where
  path := ⟨xs, hpath, hright⟩
  shifting m hm := by
    change phase = _ at hm
    rw [hm] at hd
    exact Parser.shift?_of_decides (r := r) hsmall hd
  reducing q hq := by
    change phase = _ at hq
    rw [hq] at hd
    exact Parser.reduce?_of_decides (r := r) hsmall hd

omit hsmall in
theorem Stands.shift {m : Nat} (h : r.Stands g (Automaton.of options g) es) (hm : r.phase = .shifting m) :
    Stands g (Automaton.of options g) { r.push m with phase := .reading } (es ++ [(r.push m).event .shift]) := by
  obtain ⟨xs, hpath, hright⟩ := h.path
  obtain ⟨hx, hm, -⟩ := Automaton.shift?_eq_some.mp (h.shifting m hm)
  refine .of_reading rfl (hpath.push hm) ?_
  have happ := hright.append_right (Grammar.Terminal.singleton hx)
  simpa [shiftedSymbols, Run.push] using happ

/-- A reduce puts a production before those that rebuild what has been shifted. -/
theorem Stands.derivation {q needed head : Nat} (h : r.Stands g (Automaton.of options g) es)
    (ht : (Parser.of options checks g).Takes r q needed head) :
    ∃ p before, g.productions[q]? = some p ∧ needed = p.rhs.length ∧ head = p.lhs ∧
      (Automaton.of options g).Path before (r.pop needed).stack.states ∧
      g.Rightmost (q :: (reduced es).reverse) (p.lhs :: before).reverse (shiftedSymbols es) := by
  obtain ⟨xs, hpath, hright⟩ := h.path
  obtain ⟨p, before, hq, -, rfl, hbefore⟩ := hpath.reduce (h.reducing q ht.phase)
  obtain ⟨rfl, rfl⟩ := ht.eq_of hsmall hq
  refine ⟨p, before, hq, rfl, rfl, hbefore, ?_⟩
  rw [List.reverse_cons]
  refine .expand hq .nil ?_
  rwa [List.append_nil, ← List.reverse_reverse p.rhs, ← List.reverse_append]

omit hsmall in
theorem Sound.shift {m : Nat} (h : r.Sound g (Automaton.of options g) es) (hm : r.phase = .shifting m) :
    Sound g (Automaton.of options g) { r.push m with phase := .reading } (es ++ [(r.push m).event .shift]) := by
  have hstands := h.stands (by simp [hm, Phase.isDone])
  have hstands' := hstands.shift hm
  refine ⟨hstands'.viable, fun t ht => ?_, fun _ => hstands', by simp⟩
  rw [shifted_append, List.mem_append, shifted_cons, if_pos rfl, shifted_nil, List.mem_singleton] at ht
  rcases ht with ht | rfl
  · exact h.inner t ht
  · have hedge := hstands.shifting m hm
    refine ⟨(Automaton.shift?_eq_some.mp hedge).1, ?_⟩
    rw [Token.isEnd, beq_iff_eq]
    exact Automaton.ne_endId_of_shift? hedge

/-- At the end the production of the start is left to reduce, and nothing stands below its right-hand side. -/
theorem Sound.accept {q needed head : Nat} (h : r.Sound g (Automaton.of options g) es)
    (ht : (Parser.of options checks g).Takes r q needed head)
    (hc : (Parser.of options checks g).completes r head needed) :
    Sound g (Automaton.of options g) { r with stack := r.stack.lowest, phase := .accepted }
      (es ++ [Run.event { r with stack := r.stack.lowest } .accept]) := by
  obtain ⟨p, before, hq, rfl, rfl, hbefore, hright⟩ := (h.stands ht.not_isDone).derivation hsmall ht
  obtain ⟨hstart, hend, hdepth, hmore⟩ := (Parser.completes_of hsmall).mp hc
  obtain rfl := hbefore.eq_nil_of_pop hdepth
  refine ⟨by simpa using h.viable, by simpa using h.inner, fun hd => absurd rfl hd, fun _ => ⟨?_, hend, hmore⟩⟩
  refine ⟨q, Grammar.mem_productionsOf.mpr ⟨p, hq, hstart⟩, ?_⟩
  simpa [hstart] using hright

theorem Sound.effect (h : r.Sound g (Automaton.of options g) es)
    (he : (Parser.of options checks g).Effect r r' es') : r'.Sound g (Automaton.of options g) (es ++ es') := by
  cases he with
  | @read phase hp _ hd =>
    obtain ⟨xs, hpath, hright⟩ := (h.stands (by simp [hp, Phase.isDone])).path
    refine ⟨by simpa using h.viable, by simpa using h.inner, fun _ => ?_, fun hacc => absurd hacc hd.ne_accepted⟩
    exact .of_decides hsmall hd hpath (by simpa using hright)
  | shift hp => exact h.shift hp
  | underflow => exact h.reject rfl rfl
  | accept ht hc => exact h.accept hsmall ht hc
  | @strand q needed head ht hc hg =>
    obtain ⟨why, hwhy, -⟩ := (Parser.of options checks g).exists_strand_eq r r.stack.top (r.pop needed).stack.top head
    exact h.reject hwhy rfl
  | cycle => exact h.reject rfl rfl
  | @reduce q needed head m phase ht hc hg hcyc hd =>
    obtain ⟨p, before, hq, rfl, rfl, hbefore, hright⟩ := (h.stands ht.not_isDone).derivation hsmall ht
    rw [Parser.goto_lookup_of hsmall checks hq] at hg
    refine ⟨by simpa using h.viable, by simpa using h.inner, fun _ => ?_, fun hacc => absurd hacc hd.ne_accepted⟩
    exact .of_decides hsmall hd (hbefore.push (Except.ok.inj hg)) (by simpa using hright)
  | done => rwa [List.append_nil]

theorem sound_of_steps {s : TokenStream} {n : Nat} (h : (Parser.of options checks g).steps n (start s) = .ok (r, es)) :
    r.Sound g (Automaton.of options g) es := by
  refine Machine.steps_induction (I := fun r es => r.Sound g (Automaton.of options g) es) (sound_start s) ?_ h
  intro r₁ r₂ es₁ es₂ h₁ hs
  exact h₁.effect hsmall (Parser.effect_of_step hs)

/-- A run over the tables of a grammar never leaves them. -/
theorem exists_steps_sound (checks : Bool) (s : TokenStream) (n : Nat) : ∃ r es,
    (Parser.of options checks g).steps n (start s) = .ok (r, es) ∧ r.Sound g (Automaton.of options g) es := by
  obtain ⟨r, es, h, -⟩ := Parser.exists_steps_total (p := Parser.of options checks g) (Tables.fits_of hsmall).total
    (Parser.asked_start _ s) n
  exact ⟨r, es, h, sound_of_steps hsmall h⟩

/-- Unless a run is to read, its stream held what is shifted and then the current token, which only at the end
of the stream need not have been there. -/
theorem pending_of_steps {s : TokenStream} {n : Nat}
    (h : (Parser.of options checks g).steps n (start s) = .ok (r, es)) (hne : r.phase ≠ .reading) :
    s.pending = shifted es ++ r.current :: r.stream.pending ∨
      s.pending = shifted es ∧ r.current = .eof ∧ r.stream.pending = [] := by
  have hinner := (sound_of_steps hsmall h).inner
  have hgives := Parser.steps_gives h
  rw [held_of_ne hne] at hgives
  exact hgives.pending_eq fun t ht => (hinner t ht).2

end

theorem Sound.terminal {a : Automaton} (h : r.Sound g a es) : g.Terminal (shiftedSymbols es) := by
  intro x hx
  obtain ⟨t, ht, rfl⟩ := List.mem_map.mp hx
  exact (h.inner t ht).1

end Run

theorem Automaton.small_nested : (Automaton.of ⟨.slr, .shift, .first⟩ .nested).Small .nested := by
  decide +kernel

namespace Parser

variable {g : Grammar} {options : Options} {checks : Bool} {r : Run} {es : List Event} {s : TokenStream}

/-- If a run is accepted, then the production that was not recorded and the reduces in reverse are a
rightmost derivation of what was shifted, and this is all of the stream. -/
theorem parse_sound (hsmall : (Automaton.of options g).Small g)
    (h : (Parser.of options checks g).parse s = .ok (r, es)) (hacc : r.phase = .accepted) :
    (∃ q ∈ g.productionsOf g.start,
      g.Rightmost (q :: (reduced es).reverse) [g.start] (shiftedSymbols es)) ∧
    g.Derives [g.start] (shiftedSymbols es) ∧
    (s.pending = shifted es ∨ s.pending = shifted es ++ [r.current]) ∧ r.current.isEnd ∧ ¬ r.stream.hasMore := by
  obtain ⟨-, n, h⟩ := finish_eq_ok.mp h
  have hsound := Run.sound_of_steps hsmall h
  obtain ⟨⟨q, hq, hright⟩, hend, hmore⟩ := hsound.accepted hacc
  refine ⟨⟨q, hq, hright⟩, hright.derives, ?_, hend, hmore⟩
  have hnil : r.stream.pending = [] := by simpa [TokenStream.hasMore] using hmore
  rcases Run.pending_of_steps hsmall h (by simp [hacc]) with hp | ⟨hp, -, -⟩
  · rw [hnil] at hp
    exact .inr hp
  · exact .inl hp

theorem parse_sound_nested : ∃ r es,
    (Parser.of ⟨.slr, .shift, .first⟩ true .nested).parse (.ofSymbols [1, 2]) = .ok (r, es) ∧
      r.phase = .accepted ∧ Grammar.nested.Derives [3] (shiftedSymbols es) := by
  have hrun : ((Parser.of ⟨.slr, .shift, .first⟩ true .nested).steps 7 (Run.start (.ofSymbols [1, 2]))).map
      (fun o => (o.1.phase.isDone, o.1.phase)) = .ok (true, .accepted) := by decide +kernel
  obtain ⟨r, es, h, hacc⟩ := exists_finish_of_map_eq_ok hrun
  exact ⟨r, es, h, hacc, (parse_sound Automaton.small_nested h hacc).2.1⟩

/-- A run never stops at a fault, and as long as it is not done, the states on its stack are those on the
way from state 0 along some symbols that derive what has been shifted and begin what the start derives. -/
theorem steps_viable (hsmall : (Automaton.of options g).Small g) (checks : Bool) (s : TokenStream) (n : Nat) :
    ∃ r es, (Parser.of options checks g).steps n (Run.start s) = .ok (r, es) ∧
      (¬ r.phase.isDone → ∃ xs rest, r.stack.toList.length = xs.length + 1 ∧
        (Automaton.of options g).walk? 0 xs = some r.stack.toList ∧
        g.Derives xs (shiftedSymbols es) ∧ g.Derives [g.start] (xs ++ rest)) ∧
      ∃ rest, g.Derives [g.start] (shiftedSymbols es ++ rest) := by
  obtain ⟨r, es, h, hsound⟩ := Run.exists_steps_sound hsmall checks s n
  refine ⟨r, es, h, fun hd => ?_, hsound.viable⟩
  obtain ⟨xs, hpath, hright⟩ := (hsound.stands hd).path
  obtain ⟨rest, hrest⟩ := hpath.viable
  have hlen : r.stack.toList.length = xs.reverse.length + 1 := by
    rw [Stack.toList, List.length_reverse, List.length_reverse, hpath.length_eq]
  exact ⟨xs.reverse, rest, hlen, hpath.walk?_eq, hright.derives, hrest⟩

theorem steps_viable_nested : ∃ r es,
    (Parser.of ⟨.slr, .shift, .first⟩ true .nested).steps 4 (Run.start (.ofSymbols [1, 2])) = .ok (r, es) ∧
      r.stack.toList = [0, 1, 2] ∧ shiftedSymbols es = [1] ∧
      (∃ xs rest, xs.length = 2 ∧ (Automaton.of ⟨.slr, .shift, .first⟩ .nested).walk? 0 xs = some [0, 1, 2] ∧
        Grammar.nested.Derives xs [1] ∧ Grammar.nested.Derives [3] (xs ++ rest)) ∧
      ∃ rest, Grammar.nested.Derives [3] ([1] ++ rest) := by
  have hrun : ((Parser.of ⟨.slr, .shift, .first⟩ true .nested).steps 4 (Run.start (.ofSymbols [1, 2]))).map
      (fun o => (o.1.phase, o.1.stack.toList, shiftedSymbols o.2)) = .ok (.shifting 3, [0, 1, 2], [1]) := by
    decide +kernel
  obtain ⟨r, es, h, hpath, hrest⟩ := steps_viable Automaton.small_nested true (.ofSymbols [1, 2]) 4
  rw [h] at hrun
  obtain ⟨hphase, hview⟩ := Prod.mk.inj (Except.ok.inj hrun)
  obtain ⟨hstack, hshifted⟩ : r.stack.toList = [0, 1, 2] ∧ shiftedSymbols es = [1] := Prod.mk.inj hview
  obtain ⟨xs, rest, hlen, hwalk, hderives, hstart⟩ := hpath (by rw [hphase]; exact Bool.false_ne_true)
  rw [hstack] at hlen hwalk
  rw [hshifted] at hderives hrest
  exact ⟨r, es, h, hstack, hshifted, ⟨xs, rest, Nat.succ.inj hlen.symm, hwalk, hderives, hstart⟩, hrest⟩

end Parser

end ShiftReduce
