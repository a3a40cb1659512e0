import ShiftReduce.Proofs.Automaton.Renumbering
import ShiftReduce.Proofs.Grammar.Detached
import ShiftReduce.Table.Basic

/-!
# What unreachable productions change

Two grammars that differ in productions of unreachable heads only (`Grammar.renumbers_of_append`) have the same states
with the same edges, keep the same reduces and have the same goto and reduce entries, whatever the options
(`Automaton.eq_of_unreachable`). FOLLOW, however, is taken over all productions: where an unreachable one puts
another terminal behind a reachable nonterminal, conflicts are reported that are not there without it, and where reduces
are preferred shifts are dropped (`Automaton.ne_of_unreachable`).
-/

namespace ShiftReduce

variable {g g' : Grammar} {options : Options} {P D D' : List Production}

theorem Seed.renumbered_id (seed : Seed) : seed.renumbered id = seed := by
  rw [Seed.renumbered, ItemSet.renumbered_id]

namespace Grammar

section

variable (hsymbols : g'.symbols = g.symbols) (hstart : g'.start = g.start) (hg : g.productions = P ++ D)
  (hg' : g'.productions = P ++ D') (hD : ∀ p ∈ D, ¬ g.Reaches p.lhs)

include hg hD in
theorem getElem?_of_reaches {q : Nat} {p : Production} (hq : g.productions[q]? = some p) (hreach : g.Reaches p.lhs) :
    P[q]? = some p := by
  rw [hg, List.getElem?_append] at hq
  split at hq
  · exact hq
  · exact absurd hreach (hD p (List.mem_of_getElem? hq))

include hsymbols hstart hg hg' hD in
theorem keeps_of_append : g.Keeps g' := by
  refine ⟨hsymbols, hstart, fun p hp hreach => ?_⟩
  obtain ⟨q, hq⟩ := List.getElem?_of_mem hp
  rw [hg']
  exact List.mem_append_left _ (List.mem_of_getElem? (getElem?_of_reaches hg hD hq hreach))

include hsymbols hstart hg hg' hD in
/-- Productions that are added behind those of all reached heads leave the numbers of these as they are. -/
theorem renumbers_of_append (hD' : ∀ p ∈ D', ¬ g'.Reaches p.lhs) : Renumbers id g g' := by
  have hkeeps := keeps_of_append hsymbols hstart hg hg' hD
  refine ⟨Function.injective_id, hsymbols, hstart, fun q p hq hreach => ?_, fun n p hn hreach => ?_⟩
  · have hq := getElem?_of_reaches hg hD hq hreach
    rw [hg', id_eq, List.getElem?_append_left (List.getElem?_eq_some_iff.mp hq).1, hq]
  · have hn := getElem?_of_reaches hg' hD' hn (hkeeps.reaches hreach)
    exact ⟨n, rfl, by rw [hg, List.getElem?_append_left (List.getElem?_eq_some_iff.mp hn).1, hn]⟩

end

/-- The method lets every reached production reduce on the same terminals. -/
def SameLookahead (method : Method) (g g' : Grammar) : Prop :=
  ∀ (q : Nat) p, g.productions[q]? = some p → g.Reaches p.lhs →
    (Lookahead.of method g').set q = (Lookahead.of method g).set q

theorem sameLookahead (h : Renumbers id g g') {method : Method} (hfollow : method = .lr0 ∨ SameFollow g g') :
    SameLookahead method g g' := by
  intro q p hq hreach
  have hq' := h.production q p hq hreach
  rw [id_eq] at hq'
  cases method with
  | lr0 =>
    simp only [Lookahead.set, Lookahead.of, Method.sets, List.getElem?_map, hq, hq', h.symbols, Option.map_some]
  | slr =>
    have hfollow := hfollow.resolve_left (by simp) p.lhs (g.fits p (List.mem_of_getElem? hq)).lhs hreach
    simpa only [Lookahead.set, Lookahead.of, Method.sets, List.getElem?_map, hq, hq', Option.map_some, Option.getD_some]
      using hfollow

end Grammar

namespace Survey

variable {v v' : Survey} {seed : Seed}

theorem live_of_mem_candidates {q : Nat} (hlive : ∀ i ∈ seed.kernel, g.Live i) (hq : q ∈ (v.state g seed).candidates) :
    ∃ p, g.productions[q]? = some p ∧ g.Reaches p.lhs := by
  obtain ⟨i, hi, -, rfl⟩ := mem_candidates_state.mp hq
  exact Grammar.live_closure hlive i hi

theorem state_eq (h : g.Renumbers id g') (hv : Renumbered id v v') (hlive : ∀ i ∈ seed.kernel, g.Live i) :
    v'.state g' seed = v.state g seed := by
  have htransitions : (v'.state g' seed).transitions = (v.state g seed).transitions := by
    simpa only [Seed.renumbered_id] using hv.transitions_eq h hlive
  have hadded : (v'.state g' seed).added = (v.state g seed).added := by
    simpa only [Seed.renumbered_id, ItemSet.renumbered_id] using @added_eq id g g' v v' seed h hlive
  have hitems : (v'.state g' seed).items = (v.state g seed).items :=
    congrArg (fun added => seed.kernel.items ++ added.items) hadded
  have hcandidates : (v'.state g' seed).candidates = (v.state g seed).candidates := by
    change (v'.state g' seed).items.filterMap _ = (v.state g seed).items.filterMap _
    rw [hitems]
    refine List.filterMap_congr fun i hi => ?_
    rw [← h.isComplete_eq (Grammar.live_closure hlive i (mem_items_state.mp hi))]
    rfl
  exact (State.mk.injEq ..).mpr ⟨rfl, hadded, htransitions, rfl, hcandidates⟩

end Survey

namespace State

variable {s : State} {l l' : Lookahead} {n : Nat}

theorem reduceReduces_conflicts : ((s.conflicts g l n).filter (·.kind = .reduceReduce)).map (fun c => (c.state, c.productions)) =
    ((s.reduceReduce? g l n).map fun c => (c.state, c.productions)).toList := by
  unfold conflicts reduceReduce? shiftReduce?
  by_cases h : s.candidates.length ≤ 1 <;> by_cases h' : s.colliding g l = [] <;> simp [h, h']

/-- A reduce-reduce conflict is one of the state alone; only the terminals that it names depend on lookahead. -/
theorem reduceReduce?_eq : (s.reduceReduce? g' l' n).map (fun c => (c.state, c.productions)) =
    (s.reduceReduce? g l n).map fun c => (c.state, c.productions) := by
  unfold reduceReduce?
  by_cases h : s.candidates.length ≤ 1 <;> simp [h]

theorem conflicts_eq (h : g.Renumbers id g') (hs : ∀ i ∈ s.items, g.Live i) (hmethod : l'.method = l.method)
    (hl : ∀ q ∈ s.candidates, ∀ t, l'.admits q t = l.admits q t) : s.conflicts g' l' n = s.conflicts g l n := by
  have hsame : State.Renumbered id s s :=
    ⟨ItemSet.renumbered_id.symm, ItemSet.renumbered_id.symm, rfl, rfl, by rw [List.map_id]⟩
  have hshifters : s.shifters g' = s.shifters g := by
    funext x
    rw [shifters, shifters, h.moveOver_eq hs fun _ => hsame.mem_items, ItemSet.renumbered_id]
  unfold conflicts reduceReduce? shiftReduce?
  rw [hsame.overlap_eq h ⟨hmethod, hl⟩, hsame.colliding_eq h hs ⟨hmethod, hl⟩, hshifters, hmethod]

end State

namespace Automaton

variable {n : Nat} {s : State}

theorem states_eq (h : g.Renumbers id g') : (of options g').states = (of options g).states := by
  obtain ⟨hv, hlive⟩ := Survey.renumbered_of h
  have hseeds : (Survey.of g').seeds.toList = (Survey.of g).seeds.toList := by
    rw [hv.seeds, funext Seed.renumbered_id, List.map_id']
  change (Survey.of g').seeds.toList.map _ = (Survey.of g).seeds.toList.map _
  rw [hseeds]
  refine List.map_congr_left fun seed hseed => Survey.state_eq h hv ?_
  exact hlive seed.kernel (List.mem_map_of_mem hseed)

theorem reused_eq (h : g.Renumbers id g') : (of options g').reused = (of options g).reused :=
  (Survey.renumbered_of h).1.reused

/-- States are made of reached productions only. -/
theorem live_of_mem_states (h : s ∈ (of options g).states) : (∀ i ∈ s.items, g.Live i) ∧
    ∀ q ∈ s.candidates, ∃ p, g.productions[q]? = some p ∧ g.Reaches p.lhs := by
  obtain ⟨n, hn⟩ := List.getElem?_of_mem h
  obtain ⟨seed, hseed, rfl⟩ := getElem?_states.mp hn
  have hlive := (Survey.live_of g).of_getElem? hseed
  exact ⟨fun i hi => Grammar.live_closure hlive i (Survey.mem_items_state.mp hi),
    fun q hq => Survey.live_of_mem_candidates hlive hq⟩

theorem kept?_of (s : State) : (of options g).kept? s = options.onReduceReduce.keep s.candidates := rfl

theorem reduce?_eq (h : g.Renumbers id g') (n : Nat) : (of options g').reduce? n = (of options g).reduce? n := by
  rw [reduce?, reduce?, states_eq h, funext kept?_of, funext kept?_of]

/-- The states with several complete productions, and these. -/
def reduceReduces (a : Automaton) : List (Nat × List Nat) :=
  (a.conflicts.filter (·.kind = .reduceReduce)).map fun c => (c.state, c.productions)

theorem reduceReduces_eq (h : g.Renumbers id g') : (of options g').reduceReduces = (of options g).reduceReduces := by
  have hof : ∀ g, (of options g).reduceReduces = (of options g).states.zipIdx.flatMap fun s =>
      ((s.1.reduceReduce? g (of options g).lookahead s.2).map fun c => (c.state, c.productions)).toList := by
    intro g
    rw [reduceReduces]
    change (((of options g).states.zipIdx.flatMap _).filter _).map _ = _
    rw [List.filter_flatMap, List.map_flatMap]
    refine List.flatMap_congr fun s _ => State.reduceReduces_conflicts
  rw [hof, hof, states_eq h]
  refine List.flatMap_congr fun s _ => ?_
  rw [State.reduceReduce?_eq]

theorem admits_eq (hl : Grammar.SameLookahead options.method g g') (hs : s ∈ (of options g).states) :
    ∀ q ∈ s.candidates, ∀ t, (of options g').lookahead.admits q t = (of options g).lookahead.admits q t := by
  intro q hq t
  obtain ⟨p, hp, hreach⟩ := (live_of_mem_states hs).2 q hq
  exact congrArg (·.contains t) (hl q p hp hreach)

theorem conflicts_eq (h : g.Renumbers id g') (hl : Grammar.SameLookahead options.method g g') :
    (of options g').conflicts = (of options g).conflicts := by
  change (of options g').states.zipIdx.flatMap _ = (of options g).states.zipIdx.flatMap _
  rw [states_eq h]
  refine List.flatMap_congr fun s hs => ?_
  have hs := List.mem_of_getElem? (List.mem_zipIdx_iff_getElem?.mp hs)
  exact State.conflicts_eq h (live_of_mem_states hs).1 rfl (admits_eq hl hs)

theorem gotoRow_eq (h : g.Renumbers id g') : gotoRow g' = gotoRow g := by
  funext s
  rw [gotoRow, gotoRow, h.symbols]

/-- The shifts of a state depend on lookahead only where reduces are preferred. -/
theorem shiftRow_congr {a a' : Automaton} (hsymbols : g'.symbols = g.symbols) (hoptions : a'.options = a.options)
    (hl : a.options.onShiftReduce = .shift ∨
      ∀ q ∈ s.candidates, ∀ t, a'.lookahead.admits q t = a.lookahead.admits q t) :
    a'.shiftRow g' s = a.shiftRow g s := by
  have hkept : a'.kept? s = a.kept? s := by rw [kept?, kept?, hoptions]
  rw [shiftRow, shiftRow, hkept, hoptions, hsymbols]
  refine List.filter_congr fun e _ => ?_
  rcases hl with hshift | hl
  · rw [hshift]
  · cases hk : a.kept? s with
    | none => cases a.options.onShiftReduce <;> rfl
    | some q =>
      cases a.options.onShiftReduce with
      | shift => rfl
      | reduce => simp only [hl q (ReduceReduceChoice.keep_mem hk) e.1]

/-- What two grammars differ in that is not reached has no part in the states, in their edges and in the reduces that
are kept, nor in the tables but for the shifts that preferred reduces drop. It has a part in these shifts and in
conflicts only under SLR and only through FOLLOW of symbols that are reached, so none where it mentions no such symbol. -/
theorem eq_of_unreachable (hsymbols : g'.symbols = g.symbols) (hstart : g'.start = g.start)
    (hg : g.productions = P ++ D) (hg' : g'.productions = P ++ D') (hD : ∀ p ∈ D, ¬ g.Reaches p.lhs)
    (hD' : ∀ p ∈ D', ¬ g'.Reaches p.lhs) (options : Options) :
    (of options g').states = (of options g).states ∧ (of options g').reused = (of options g).reused ∧
    (∀ n, (of options g').reduce? n = (of options g).reduce? n) ∧
    (of options g').reduceReduces = (of options g).reduceReduces ∧
    (Tables.of options g').goto = (Tables.of options g).goto ∧
    (Tables.of options g').reduce = (Tables.of options g).reduce ∧
    (options.onShiftReduce = .shift → (Tables.of options g').shift = (Tables.of options g).shift) ∧
    (options.method = .lr0 ∨ g.SameFollow g' ∨ g.Detached ∧ g'.Detached →
      (of options g').conflicts = (of options g).conflicts ∧
      (Tables.of options g').shift = (Tables.of options g).shift) := by
  have h := Grammar.renumbers_of_append hsymbols hstart hg hg' hD hD'
  have hstates := @states_eq g g' options h
  have hshift (hl : options.onShiftReduce = .shift ∨ Grammar.SameLookahead options.method g g') :
      (Tables.of options g').shift = (Tables.of options g).shift := by
    refine congrArg Segments.ofRows ?_
    rw [hstates]
    exact List.map_congr_left fun s hs => shiftRow_congr hsymbols rfl (hl.imp_right fun hl => admits_eq hl hs)
  refine ⟨hstates, reused_eq h, reduce?_eq h, reduceReduces_eq h, ?_, ?_, fun hs => hshift (.inl hs), fun hfollow => ?_⟩
  · refine congrArg Segments.ofRows ?_
    rw [hstates, gotoRow_eq h]
  · change (of options g').states.map _ = (of options g).states.map _
    rw [hstates, funext kept?_of, funext kept?_of]
  · have hl : Grammar.SameLookahead options.method g g' := by
      refine Grammar.sameLookahead h (hfollow.imp_right ?_)
      rintro (hfollow | ⟨hdetached, hdetached'⟩)
      · exact hfollow
      · exact Grammar.sameFollow_of_detached (Grammar.keeps_of_append hsymbols hstart hg hg' hD)
          (Grammar.keeps_of_append hsymbols.symm hstart.symm hg' hg hD') hdetached hdetached'
    exact ⟨conflicts_eq h hl, hshift (.inr hl)⟩

end Automaton

namespace Grammar

/-- `a` or `a b`: `S` is `A`, and `D`, the nonterminal 5, is unreachable. -/
def withSpare (body : List Nat)
    (h : fault? ⟨["a", "b"], ["S", "A", "D"], by decide⟩ ([⟨3, [4]⟩, ⟨4, [1]⟩, ⟨4, [1, 2]⟩] ++ [⟨5, body⟩]) 3 = none) :
    Grammar :=
  ⟨_, _, 3, isNonterminal_of_fault? h, fits_of_fault? h, headed_of_fault? h⟩

/-- `D` is `a`. -/
def spareLetter : Grammar := withSpare [1] (by decide)

/-- `D` is `A b`, so `b` follows `A`. -/
def spareTail : Grammar := withSpare [4, 2] (by decide)

/-- `D` is `D b`. -/
def spareLoop : Grammar := withSpare [5, 2] (by decide)

end Grammar

namespace Automaton

open Grammar

/-- Only `D` itself is followed by another symbol in one of the two. -/
theorem eq_of_unreachable_spare : (∀ p ∈ [(⟨5, [1]⟩ : Production)], ¬ spareLetter.Reaches p.lhs) ∧
    (∀ p ∈ [(⟨5, [5, 2]⟩ : Production)], ¬ spareLoop.Reaches p.lhs) ∧ spareLetter.Detached ∧ spareLoop.Detached ∧
    (of ⟨.slr, .reduce, .last⟩ spareLoop).states = (of ⟨.slr, .reduce, .last⟩ spareLetter).states ∧
    (of ⟨.slr, .reduce, .last⟩ spareLoop).conflicts = (of ⟨.slr, .reduce, .last⟩ spareLetter).conflicts ∧
    (Tables.of ⟨.slr, .reduce, .last⟩ spareLoop).shift = (Tables.of ⟨.slr, .reduce, .last⟩ spareLetter).shift := by
  have hD : ∀ p ∈ [(⟨5, [1]⟩ : Production)], ¬ spareLetter.Reaches p.lhs := by decide +kernel
  have hD' : ∀ p ∈ [(⟨5, [5, 2]⟩ : Production)], ¬ spareLoop.Reaches p.lhs := by decide +kernel
  have hdetached : spareLetter.Detached ∧ spareLoop.Detached := by
    unfold Detached
    decide +kernel
  obtain ⟨hstates, -, -, -, -, -, -, hsame⟩ :=
    @eq_of_unreachable spareLetter spareLoop _ _ _ rfl rfl rfl rfl hD hD' ⟨.slr, .reduce, .last⟩
  exact ⟨hD, hD', hdetached.1, hdetached.2, hstates, hsame (.inr (.inr hdetached))⟩

/-- An unreachable production that puts `b` behind `A` makes a conflict of `a` with `a b`. With reduces preferred
`a b` is not shifted any more. -/
theorem ne_of_unreachable : spareTail.symbols = spareLetter.symbols ∧ spareTail.start = spareLetter.start ∧
    (∃ P, spareLetter.productions = P ++ [⟨5, [1]⟩] ∧ spareTail.productions = P ++ [⟨5, [4, 2]⟩] ∧
      (∀ p ∈ spareLetter.productions, spareLetter.Reaches p.lhs → p ∈ P) ∧
      ∀ p ∈ spareTail.productions, spareTail.Reaches p.lhs → p ∈ P) ∧
    ¬ spareLetter.Reaches 5 ∧ ¬ spareTail.Reaches 5 ∧
    (of ⟨.slr, .shift, .first⟩ spareTail).conflicts ≠ (of ⟨.slr, .shift, .first⟩ spareLetter).conflicts ∧
    (Tables.of ⟨.slr, .reduce, .first⟩ spareTail).shift ≠ (Tables.of ⟨.slr, .reduce, .first⟩ spareLetter).shift := by
  refine ⟨rfl, rfl, ⟨[⟨3, [4]⟩, ⟨4, [1]⟩, ⟨4, [1, 2]⟩], rfl, rfl, ?_, ?_⟩, ?_, ?_, ?_, ?_⟩ <;> decide +kernel

end Automaton

end ShiftReduce
