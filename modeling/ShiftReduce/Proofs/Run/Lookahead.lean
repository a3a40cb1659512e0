import ShiftReduce.Proofs.Automaton.Conflict
import ShiftReduce.Proofs.Run.Soundness

/-!
# The lookahead check

A parser that checks the lookahead refuses to reduce on a symbol that cannot follow the head. A parser that does
not check reduces, and from then on what its stack spells is barred: it does not go on with the symbol in any
string that the start derives, the end token behind it. Reduces keep this up, so the symbol is never shifted
and the end of the input is never accepted (`Lost`). The two runs are the same up to the refusal, and
behind it the one without the check only reduces until it is rejected, too (`Parted`).
-/

namespace ShiftReduce

open Event

/-- The shift events, in order. -/
def Event.shifts (es : List Event) : List Event :=
  es.filter fun e => e.action = .shift

@[simp] theorem Event.shifts_append (es es' : List Event) : shifts (es ++ es') = shifts es ++ shifts es' :=
  List.filter_append es es'

@[simp] theorem Event.shifts_closing (r : Run) (phase : Phase) : shifts (r.closing phase) = [] := by
  cases phase <;> rfl

theorem Phase.exists_rejected {phase : Phase} (hd : phase.isDone) (hne : phase ≠ .accepted) :
    ∃ why, phase = .rejected why := by
  cases phase with
  | rejected why => exact ⟨why, rfl⟩
  | accepted => exact absurd rfl hne
  | _ => cases hd

/-- Nothing that the start and the end token derive goes on with the terminal `x` behind `xs`. -/
def Grammar.Barred (g : Grammar) (xs : List Nat) (x : Nat) : Prop :=
  g.symbols.isTerminal x → ∀ rest, ¬ g.Derives [g.start, endId] (xs ++ x :: rest)

namespace Grammar.Barred

variable {g : Grammar} {before : List Nat} {p : Production} {x : Nat}

theorem of_not_mem_follow (hp : p ∈ g.productions)
    (hx : x ∉ (FollowTable.of g (FirstTable.of g)).follow p.lhs) : g.Barred (before ++ [p.lhs]) x := by
  intro ht rest h
  rw [List.append_assoc] at h
  exact hx (FollowTable.mem_follow_of_next h (g.fits p hp).lhs ht)

/-- A reduce does not open what is barred. -/
theorem reduce (hp : p ∈ g.productions) (h : g.Barred (before ++ p.rhs) x) : g.Barred (before ++ [p.lhs]) x := by
  intro ht rest hd
  rw [List.append_assoc] at hd
  exact h ht rest (hd.tail ⟨p, hp, before, x :: rest, rfl, rfl⟩)

end Grammar.Barred

namespace Parser

variable {p : Parser} {n : Nat} {r r' : Run} {es : List Event} {s : TokenStream}

/-- A step into a rejection records it last. -/
theorem Effect.records_reject {why : Rejection} (he : p.Effect r r' es) (hnd : ¬ r.phase.isDone)
    (hr : r'.phase = .rejected why) : ∃ common e, es = common ++ [e] ∧ e.action = .reject := by
  cases he with
  | @read phase _ _ _ =>
    obtain rfl : phase = .rejected why := hr
    exact ⟨[], _, rfl, rfl⟩
  | shift => cases hr
  | underflow => exact ⟨[], _, rfl, rfl⟩
  | accept => cases hr
  | strand => exact ⟨[], _, rfl, rfl⟩
  | cycle => exact ⟨[_], _, rfl, rfl⟩
  | @reduce q needed head m phase _ _ _ _ _ =>
    obtain rfl : phase = .rejected why := hr
    exact ⟨[_], _, rfl, rfl⟩
  | done hd => exact absurd hd hnd

theorem records_reject_of_steps {why : Rejection} (h : p.steps n (Run.start s) = .ok (r, es))
    (hr : r.phase = .rejected why) : ∃ common e, es = common ++ [e] ∧ e.action = .reject := by
  induction n generalizing r es with
  | zero =>
    obtain ⟨rfl, rfl⟩ := Prod.mk.inj (Except.ok.inj h)
    cases hr
  | succ n ih =>
    obtain ⟨r₁, es₁, es₂, h₁, hs, rfl⟩ := Machine.steps_succ_eq_ok.mp h
    by_cases hd : r₁.phase.isDone
    · rw [step_of_isDone hd] at hs
      obtain ⟨rfl, rfl⟩ := Prod.mk.inj (Except.ok.inj hs)
      rw [List.append_nil]
      exact ih h₁ hr
    · obtain ⟨common, e, rfl, he⟩ := (effect_of_step hs).records_reject hd hr
      exact ⟨es₁ ++ common, e, (List.append_assoc _ _ _).symm, he⟩

end Parser

namespace Run

/-- The run is rejected, or it is to reduce and will then stand on a path that bars the current symbol. -/
inductive Lost (g : Grammar) (a : Automaton) (r : Run) : Prop
  | rejected {why : Rejection} (h : r.phase = .rejected why)
  | reducing {q : Nat} {p : Production} {before : List Nat} (h : r.phase = .reducing q)
      (hq : g.productions[q]? = some p) (hpath : a.Path (p.rhs.reverse ++ before) r.stack.states)
      (hbar : g.Barred (before.reverse ++ [p.lhs]) r.current.symbol)

/-- Of two runs on one input the first is rejected where the second goes on and is lost. -/
structure Parted (g : Grammar) (a : Automaton) (r : Run) (es : List Event) (r' : Run) (es' : List Event) : Prop where
  rejected : ∃ why, r.phase = .rejected why
  lost : r'.Lost g a
  events : ∃ common e later, es = common ++ [e] ∧ e.action = .reject ∧ es' = common ++ later ∧ shifts later = []

variable {g : Grammar} {options : Options} {checks : Bool} {r r' : Run} {es es' : List Event} {n : Nat}

theorem Lost.phase {a : Automaton} (h : r.Lost g a) :
    (∃ why, r.phase = .rejected why) ∨ ∃ q, r.phase = .reducing q := by
  cases h with
  | rejected h => exact .inl ⟨_, h⟩
  | reducing h => exact .inr ⟨_, h⟩

theorem Lost.ne_accepted {a : Automaton} (h : r.Lost g a) : r.phase ≠ .accepted := by
  rcases h.phase with ⟨why, h⟩ | ⟨q, h⟩
  · rw [h]
    exact nofun
  · rw [h]
    exact nofun

theorem Parted.ne_accepted {a : Automaton} (h : r.Parted g a es r' es') : r.phase ≠ .accepted := by
  obtain ⟨why, hwhy⟩ := h.rejected
  rw [hwhy]
  exact nofun

theorem Parted.shifts_eq {a : Automaton} (h : r.Parted g a es r' es') : shifts es = shifts es' := by
  obtain ⟨common, e, later, rfl, he, rfl, hlater⟩ := h.events
  have hreject : shifts [e] = [] := by
    rw [shifts, List.filter_singleton, he]
    rfl
  rw [shifts_append, shifts_append, hreject, hlater]

theorem Parted.append {a : Automaton} (h : r.Parted g a es r' es') (before : List Event) :
    r.Parted g a (before ++ es) r' (before ++ es') := by
  obtain ⟨common, e, later, rfl, he, rfl, hlater⟩ := h.events
  refine ⟨h.rejected, h.lost, before ++ common, e, later, ?_, he, ?_, hlater⟩
  · rw [List.append_assoc]
  · rw [List.append_assoc]

section

variable (hsmall : (Automaton.of options g).Small g)

include hsmall

/-- On a path that bars the current symbol nothing is decided on that shifts it. -/
theorem Lost.of_decides {phase : Phase} {xs : List Nat} (hd : (Parser.of options checks g).Decides r phase)
    (hpath : (Automaton.of options g).Path xs r.stack.states) (hbar : g.Barred xs.reverse r.current.symbol) :
    Lost g (Automaton.of options g) { r with phase := phase } := by
  cases phase with
  | reading => exact absurd rfl hd.ne_reading
  | accepted => exact absurd rfl hd.ne_accepted
  | rejected why => exact .rejected rfl
  | shifting m =>
    obtain ⟨hx, hm, -⟩ := Automaton.shift?_eq_some.mp (Parser.shift?_of_decides hsmall hd)
    obtain ⟨rest, hrest⟩ := (hpath.push hm).viable
    have hend := hrest.append_right [endId]
    rw [List.reverse_cons, List.append_assoc, List.append_assoc] at hend
    exact absurd hend (hbar hx (rest ++ [endId]))
  | reducing q =>
    obtain ⟨p, before, hq, -, rfl, -⟩ := hpath.reduce (Parser.reduce?_of_decides hsmall hd)
    rw [List.reverse_append, List.reverse_reverse] at hbar
    exact .reducing rfl hq hpath (hbar.reduce (List.mem_of_getElem? hq))

/-- What a lost run takes off its stack is the right-hand side that its path ends with. -/
theorem Lost.takes {q needed head : Nat} (h : r.Lost g (Automaton.of options g))
    (ht : (Parser.of options checks g).Takes r q needed head) : ∃ p before, g.productions[q]? = some p ∧
      needed = p.rhs.length ∧ head = p.lhs ∧ (Automaton.of options g).Path before (r.pop needed).stack.states ∧
      g.Barred (p.lhs :: before).reverse r.current.symbol := by
  cases h with
  | rejected h => cases h.symm.trans ht.phase
  | @reducing q' p before h hq hpath hbar =>
    obtain rfl : q' = q := Phase.reducing.inj (h.symm.trans ht.phase)
    obtain ⟨rfl, rfl⟩ := ht.eq_of hsmall hq
    exact ⟨p, before, hq, rfl, rfl, hpath.rest, by rwa [List.reverse_cons]⟩

theorem Lost.effect (h : r.Lost g (Automaton.of options g)) (he : (Parser.of options checks g).Effect r r' es) :
    r'.Lost g (Automaton.of options g) ∧ shifts es = [] := by
  cases he with
  | read hp => rcases h.phase with ⟨_, h⟩ | ⟨_, h⟩ <;> cases h.symm.trans hp
  | shift hp => rcases h.phase with ⟨_, h⟩ | ⟨_, h⟩ <;> cases h.symm.trans hp
  | underflow => exact ⟨.rejected rfl, rfl⟩
  | accept ht hc =>
    -- the whole stack is the right-hand side of the start, which the end token may follow
    obtain ⟨p, before, hq, rfl, rfl, hbefore, hbar⟩ := h.takes hsmall ht
    obtain ⟨hstart, hend, hdepth, -⟩ := (Parser.completes_of hsmall).mp hc
    obtain rfl := hbefore.eq_nil_of_pop hdepth
    have hsymbol : r.current.symbol = endId := by simpa [Token.isEnd] using hend
    rw [hsymbol, hstart] at hbar
    exact absurd (Grammar.Derives.refl _) (hbar g.symbols.isTerminal_endId [])
  | @strand q needed head =>
    obtain ⟨why, hwhy, -⟩ := (Parser.of options checks g).exists_strand_eq r r.stack.top (r.pop needed).stack.top head
    exact ⟨.rejected hwhy, rfl⟩
  | cycle => exact ⟨.rejected rfl, rfl⟩
  | @reduce q needed head m phase ht hc hg hcyc hd =>
    obtain ⟨p, before, hq, rfl, rfl, hbefore, hbar⟩ := h.takes hsmall ht
    rw [Parser.goto_lookup_of hsmall checks hq] at hg
    refine ⟨.of_decides hsmall hd (hbefore.push (Except.ok.inj hg)) hbar, ?_⟩
    exact shifts_closing _ phase
  | done => exact ⟨h, rfl⟩

/-- Without the check the decision is the same, or a run that is refused with it is lost. -/
theorem unchecked_of_decides {phase : Phase} {xs : List Nat} (hd : (Parser.of options true g).Decides r phase)
    (hpath : (Automaton.of options g).Path xs r.stack.states) : (Parser.of options false g).Decides r phase ∨
      (∃ why, phase = .rejected why) ∧ ∃ q, (Parser.of options false g).Decides r (.reducing q) ∧
        Lost g (Automaton.of options g) { r with phase := .reducing q } := by
  cases hd with
  | shift h => exact .inl (.shift h)
  | refuse h hq => exact .inl (.refuse h hq)
  | reduce h hq ha => exact .inl (.reduce h hq fun hc => absurd hc Bool.false_ne_true)
  | @mismatch q h hq hc ha =>
    have hdecides : (Parser.of options false g).Decides r (.reducing q) :=
      .reduce h hq fun hc => absurd hc Bool.false_ne_true
    refine .inr ⟨⟨_, rfl⟩, q, hdecides, ?_⟩
    obtain ⟨p, before, hp, -, rfl, -⟩ := hpath.reduce (Parser.reduce?_of_decides hsmall hdecides)
    refine .reducing rfl hp hpath (.of_not_mem_follow (List.mem_of_getElem? hp) fun hfollow => ha ?_)
    have hx := FollowTable.isTerminal_of_mem_follow (g.fits p (List.mem_of_getElem? hp)).lhs hfollow
    change (Tables.of options g).admits q r.current.symbol
    rw [Tables.admits_of hsmall hp, Bool.and_eq_true]
    exact ⟨hx, Automaton.admits_of_mem_follow hp hfollow⟩

/-- Without the check a step is the same, or the two runs part. -/
theorem Sound.unchecked (h : r.Sound g (Automaton.of options g) es) (he : (Parser.of options true g).Effect r r' es') :
    (Parser.of options false g).Effect r r' es' ∨ ∃ r₂ es₂, (Parser.of options false g).Effect r r₂ es₂ ∧
      r'.Parted g (Automaton.of options g) es' r₂ es₂ := by
  have htakes : ∀ {q needed head}, (Parser.of options true g).Takes r q needed head →
      (Parser.of options false g).Takes r q needed head := fun ht => ⟨ht.phase, ht.length, ht.head, ht.depth⟩
  cases he with
  | @read phase hp hs hd =>
    obtain ⟨xs, hpath, -⟩ := (h.stands (by simp [hp, Phase.isDone])).path
    rcases unchecked_of_decides hsmall hd hpath with hd | ⟨⟨why, rfl⟩, q, hd, hlost⟩
    · exact .inl (.read hp hs hd)
    · exact .inr ⟨_, _, .read hp hs hd, ⟨why, rfl⟩, hlost, [], _, [], rfl, rfl, rfl, rfl⟩
  | shift hp => exact .inl (.shift hp)
  | underflow hp hn hh hs hlt => exact .inl (.underflow hp hn hh hs hlt)
  | accept ht hc => exact .inl (.accept (htakes ht) hc)
  | strand ht hc hg => exact .inl (.strand (htakes ht) hc hg)
  | cycle ht hc hg hcyc => exact .inl (.cycle (htakes ht) hc hg hcyc)
  | @reduce q needed head m phase ht hc hg hcyc hd =>
    obtain ⟨p, before, hq, rfl, rfl, hbefore, -⟩ := (h.stands ht.not_isDone).derivation hsmall ht
    have hgoto := hg
    rw [Parser.goto_lookup_of hsmall true hq] at hgoto
    rcases unchecked_of_decides hsmall hd (hbefore.push (Except.ok.inj hgoto)) with hd | ⟨⟨why, rfl⟩, q', hd, hlost⟩
    · exact .inl (.reduce (htakes ht) hc hg hcyc hd)
    · exact .inr ⟨_, _, .reduce (htakes ht) hc hg hcyc hd, ⟨why, rfl⟩, hlost, [_], _, [], rfl, rfl, rfl, rfl⟩
  | done hd => exact .inl (.done hd)

/-- After any number of steps the two runs are the same or have parted. -/
theorem unchecked_of_steps {s : TokenStream} (h : (Parser.of options true g).steps n (start s) = .ok (r, es))
    (h' : (Parser.of options false g).steps n (start s) = .ok (r', es')) :
    r' = r ∧ es' = es ∨ r.Parted g (Automaton.of options g) es r' es' := by
  induction n generalizing r es r' es' with
  | zero =>
    obtain ⟨rfl, rfl⟩ := Prod.mk.inj (Except.ok.inj h)
    obtain ⟨rfl, rfl⟩ := Prod.mk.inj (Except.ok.inj h')
    exact .inl ⟨rfl, rfl⟩
  | succ n ih =>
    obtain ⟨r₁, es₁, es₂, h₁, hs, rfl⟩ := Machine.steps_succ_eq_ok.mp h
    obtain ⟨r₁', es₁', es₂', h₁', hs', rfl⟩ := Machine.steps_succ_eq_ok.mp h'
    rcases ih h₁ h₁' with ⟨rfl, rfl⟩ | hparted
    · rcases (sound_of_steps hsmall h₁).unchecked hsmall (Parser.effect_of_step hs) with he | ⟨r₂, es₂, he, hparted⟩
      · obtain ⟨rfl, rfl⟩ := Prod.mk.inj (Except.ok.inj (hs'.symm.trans (Parser.step_of_effect he)))
        exact .inl ⟨rfl, rfl⟩
      · obtain ⟨rfl, rfl⟩ := Prod.mk.inj (Except.ok.inj (hs'.symm.trans (Parser.step_of_effect he)))
        exact .inr (hparted.append es₁')
    · obtain ⟨why, hwhy⟩ := hparted.rejected
      rw [Parser.step_of_isDone (by rw [hwhy]; rfl)] at hs
      obtain ⟨rfl, rfl⟩ := Prod.mk.inj (Except.ok.inj hs)
      obtain ⟨common, e, later, rfl, he, rfl, hlater⟩ := hparted.events
      obtain ⟨hlost, hshifts⟩ := hparted.lost.effect hsmall (Parser.effect_of_step hs')
      refine .inr ⟨⟨why, hwhy⟩, hlost, common, e, later ++ es₂', ?_, he, ?_, ?_⟩
      · rw [List.append_nil]
      · rw [List.append_assoc]
      · rw [shifts_append, hlater, hshifts, List.append_nil]

end

end Run

namespace Parser

variable {g : Grammar} {options : Options}

/-- With and without the lookahead check a run over the tables of a grammar comes to the same verdict by the same
shifts. Accepted runs record the same events, and a checked run that is rejected records what the other
one begins with and the rejection. -/
theorem parse_unchecked (hsmall : (Automaton.of options g).Small g) (s : TokenStream) : ∃ r es r' es',
    (of options true g).parse s = .ok (r, es) ∧ (of options false g).parse s = .ok (r', es') ∧
    r.phase.isDone ∧ r'.phase.isDone ∧ (r.phase = .accepted ↔ r'.phase = .accepted) ∧ shifts es = shifts es' ∧
    (r.phase = .accepted → es = es') ∧
    (r.phase ≠ .accepted → ∃ common e, es = common ++ [e] ∧ e.action = .reject ∧ common <+: es') := by
  have hparse := fun checks => exists_parse (p := of options checks g) (ending_of hsmall) (Tables.fits_of hsmall).total s
  obtain ⟨m, r, es, hm, h, hdone⟩ := hparse true
  obtain ⟨n, r', es', hn, h', hdone'⟩ := hparse false
  -- runs that are done stay, so both are compared after the same number of steps
  have hmax := steps_of_le hm hdone (Nat.le_max_left m n)
  have hmax' := steps_of_le hn hdone' (Nat.le_max_right m n)
  refine ⟨r, es, r', es', h, h', hdone, hdone', ?_⟩
  rcases Run.unchecked_of_steps hsmall hmax hmax' with ⟨rfl, rfl⟩ | hparted
  · refine ⟨Iff.rfl, rfl, fun _ => rfl, fun hne => ?_⟩
    obtain ⟨why, hwhy⟩ := Phase.exists_rejected hdone hne
    obtain ⟨common, e, rfl, he⟩ := records_reject_of_steps hm hwhy
    exact ⟨common, e, rfl, he, List.prefix_append common [e]⟩
  · have hne := hparted.ne_accepted
    have hne' := hparted.lost.ne_accepted
    refine ⟨⟨fun hacc => absurd hacc hne, fun hacc => absurd hacc hne'⟩, hparted.shifts_eq, ?_, fun _ => ?_⟩
    · exact fun hacc => absurd hacc hne
    · obtain ⟨common, e, later, rfl, he, rfl, -⟩ := hparted.events
      exact ⟨common, e, rfl, he, List.prefix_append common later⟩

/-- In `a a b a` the last `a` cannot follow `S`, which is found before the reduce or after it. -/
theorem parse_unchecked_nested : ∃ r es r' es',
    (of ⟨.slr, .shift, .first⟩ true .nested).parse (.ofSymbols [1, 1, 2, 1]) = .ok (r, es) ∧
      (of ⟨.slr, .shift, .first⟩ false .nested).parse (.ofSymbols [1, 1, 2, 1]) = .ok (r', es') ∧
      r.phase = .rejected (.lookaheadMismatch 3 0 1) ∧ reduced es = [1] ∧
      r'.phase = .rejected (.noAction 2 1 "1") ∧ reduced es' = [1, 0] ∧ shifts es = shifts es' ∧
      ∃ common e, es = common ++ [e] ∧ e.action = .reject ∧ common <+: es' := by
  have hrun : ((of ⟨.slr, .shift, .first⟩ true .nested).steps 9 (Run.start (.ofSymbols [1, 1, 2, 1]))).map
      (fun o => (o.1.phase.isDone, o.1.phase, reduced o.2)) =
      .ok (true, .rejected (.lookaheadMismatch 3 0 1), [1]) := by decide +kernel
  have hrun' : ((of ⟨.slr, .shift, .first⟩ false .nested).steps 10 (Run.start (.ofSymbols [1, 1, 2, 1]))).map
      (fun o => (o.1.phase.isDone, o.1.phase, reduced o.2)) = .ok (true, .rejected (.noAction 2 1 "1"), [1, 0]) := by
    decide +kernel
  obtain ⟨r, es, h, hview⟩ := exists_finish_of_map_eq_ok hrun
  obtain ⟨r', es', h', hview'⟩ := exists_finish_of_map_eq_ok hrun'
  obtain ⟨hphase, hreduced⟩ := Prod.mk.inj hview
  obtain ⟨hphase', hreduced'⟩ := Prod.mk.inj hview'
  obtain ⟨r₁, es₁, r₂, es₂, h₁, h₂, -, -, -, hshifts, -, hprefix⟩ :=
    parse_unchecked Automaton.small_nested (.ofSymbols [1, 1, 2, 1])
  obtain ⟨rfl, rfl⟩ := Prod.mk.inj (Except.ok.inj (h.symm.trans h₁))
  obtain ⟨rfl, rfl⟩ := Prod.mk.inj (Except.ok.inj (h'.symm.trans h₂))
  have hne : r.phase ≠ .accepted := by
    rw [hphase]
    exact nofun
  exact ⟨r, es, r', es', h, h', hphase, hreduced, hphase', hreduced', hshifts, hprefix hne⟩

end Parser

end ShiftReduce
