import ShiftReduce.Proofs.Automaton.Detection
import ShiftReduce.Table.Basic

/-!
# What build options decide

States and their edges are made without a look at the options. The method says on which terminals productions reduce,
and FOLLOW sets only take terminals away: what collides under SLR collides under LR(0) (`State.Collides.lr0_of_slr`).
The choices only decide where a conflict is reported: a state without one shifts on all terminals of its edges
(`Automaton.shiftRow_eq`) and has no two productions to choose from (`Automaton.kept?_congr`).
-/

namespace ShiftReduce

variable {g : Grammar} {s : State} {n : Nat}

theorem ReduceReduceChoice.keep_congr {choice choice' : ReduceReduceChoice} {qs : List Nat}
    (h : choice' = choice ∨ qs.length ≤ 1) : choice'.keep qs = choice.keep qs := by
  rcases h with rfl | h
  · rfl
  · rcases qs with - | ⟨q, - | ⟨q', qs⟩⟩
    · cases choice <;> cases choice' <;> rfl
    · cases choice <;> cases choice' <;> rfl
    · simp at h

theorem Lookahead.admits_lr0_of_slr {q t : Nat} (h : (of .slr g).admits q t) : (of .lr0 g).admits q t := by
  have ht := isTerminal_of_admits h
  obtain ⟨p, hp, -⟩ := admits_slr.mp h
  exact admits_lr0.mpr ⟨⟨p, hp⟩, ht⟩

theorem State.Collides.lr0_of_slr {t : Nat} (h : s.Collides g (.of .slr g) t) : s.Collides g (.of .lr0 g) t := by
  obtain ⟨ht, hexpects, q, hq, ha⟩ := h
  exact ⟨ht, hexpects, q, hq, Lookahead.admits_lr0_of_slr ha⟩

namespace Automaton

variable {options options' : Options} {c : Conflict}

theorem exists_next_of_edge {e : Nat × Nat} (hs : s ∈ (of options g).states) (he : e ∈ s.transitions) :
    ∃ i ∈ s.items, i.next? g = some e.1 := by
  obtain ⟨n, hn⟩ := List.getElem?_of_mem hs
  obtain ⟨seed, -, rfl⟩ := getElem?_states.mp hn
  obtain ⟨⟨x, kernel⟩, hx, he⟩ := List.mem_filterMap.mp he
  obtain ⟨m, -, rfl⟩ := Option.map_eq_some_iff.mp he
  obtain ⟨⟨i, hi, hnext⟩, -⟩ := Grammar.mem_successors.mp hx
  exact ⟨i, Survey.mem_items_state.mpr hi, hnext⟩

/-- A state shifts on all terminals of its edges where shifts are preferred or there is no conflict. -/
theorem shiftRow_eq (h : options.onShiftReduce = .shift ∨ (of options g).conflicts = [])
    (hs : s ∈ (of options g).states) :
    (of options g).shiftRow g s = s.transitions.filter fun e => g.symbols.isTerminal e.1 := by
  obtain ⟨n, hn⟩ := List.getElem?_of_mem hs
  refine List.filter_congr fun e he => ?_
  cases ht : g.symbols.isTerminal e.1 with
  | false => rfl
  | true =>
    have hoptions : (of options g).options = options := rfl
    simp only [Bool.true_and, hoptions]
    rcases h with hshift | hnone
    · rw [hshift]
    · cases hkept : (of options g).kept? s with
      | none => cases options.onShiftReduce <;> rfl
      | some q =>
        obtain ⟨i, hi, hnext⟩ := exists_next_of_edge hs he
        have hitem := mem_itemsAt_iff_items.mpr ⟨s, hn, hi⟩
        have hreduce : (of options g).reduce? n = some q := by rw [reduce?, hn, Option.bind_some, hkept]
        have hadmits := not_admits_of_next hnone hitem hnext ht hreduce
        cases options.onShiftReduce with
        | shift => rfl
        | reduce => simp [hadmits]

/-- A state keeps the same production where the same one is chosen or there is no conflict. -/
theorem kept?_congr (h : options'.onReduceReduce = options.onReduceReduce ∨ (of options g).conflicts = [])
    (hs : s ∈ (of options g).states) : (of options' g).kept? s = (of options g).kept? s := by
  obtain ⟨n, hn⟩ := List.getElem?_of_mem hs
  exact ReduceReduceChoice.keep_congr (h.imp_right fun hnone => (conflictFree_state hnone hn).1)

theorem shift_congr (h : options.onShiftReduce = .shift ∨ (of options g).conflicts = [])
    (h' : options'.onShiftReduce = .shift ∨ (of options' g).conflicts = []) :
    (Tables.of options' g).shift = (Tables.of options g).shift := by
  refine congrArg Segments.ofRows (List.map_congr_left fun s hs => ?_)
  rw [shiftRow_eq h hs, shiftRow_eq h' hs]

theorem reduce_congr (h : options'.onReduceReduce = options.onReduceReduce ∨ (of options g).conflicts = []) :
    (Tables.of options' g).reduce = (Tables.of options g).reduce :=
  List.map_congr_left fun s hs => by rw [kept?_congr h hs]

/-- Whether several productions are complete in a state is no matter of lookahead. -/
theorem reduceReduce_of_options (h : ∃ c ∈ (of options g).conflicts, c.state = n ∧ c.kind = .reduceReduce) :
    ∃ c ∈ (of options' g).conflicts, c.state = n ∧ c.kind = .reduceReduce := by
  obtain ⟨c, hc, rfl, hkind⟩ := h
  obtain ⟨s, hs⟩ := exists_state hc
  have hs' : (of options' g).states[c.state]? = some s := hs
  exact (exists_reduceReduce_iff hs').mpr ((exists_reduceReduce_iff hs).mp ⟨c, hc, rfl, hkind⟩)

/-- What is reported under SLR is reported under LR(0), maybe on more terminals. -/
theorem exists_conflict_lr0 (hslr : options.method = .slr) (hlr0 : options'.method = .lr0) :
    ∀ c ∈ (of options g).conflicts, ∃ c' ∈ (of options' g).conflicts, c'.state = c.state ∧ c'.kind = c.kind ∧
      (c.kind = .shiftReduce → c.symbols ⊆ c'.symbols) := by
  intro c hc
  cases hkind : c.kind with
  | reduceReduce =>
    obtain ⟨c', hc', hstate, hkind'⟩ : ∃ c' ∈ (of options' g).conflicts, c'.state = c.state ∧ c'.kind = .reduceReduce :=
      reduceReduce_of_options ⟨c, hc, rfl, hkind⟩
    exact ⟨c', hc', hstate, hkind', fun h => by cases h⟩
  | shiftReduce =>
    obtain ⟨s, hs⟩ := exists_state hc
    have hs' : (of options' g).states[c.state]? = some s := hs
    have hcollides : ∀ t, s.Collides g (.of options.method g) t → s.Collides g (.of options'.method g) t := by
      rw [hslr, hlr0]
      exact fun t ht => ht.lr0_of_slr
    obtain ⟨t, ht⟩ := (exists_shiftReduce_iff hs).mp ⟨c, hc, rfl, hkind⟩
    obtain ⟨c', hc', hstate, hkind'⟩ := (exists_shiftReduce_iff hs').mpr ⟨t, hcollides t ht⟩
    refine ⟨c', hc', hstate, hkind', fun _ t ht => ?_⟩
    have ht := ((ofShiftReduce hs hc rfl hkind).mem_symbols t).mp ht
    exact ((ofShiftReduce hs' hc' hstate hkind').mem_symbols t).mpr (hcollides t ht)

theorem conflicts_congr (hmethod : options'.method = options.method) :
    (of options' g).conflicts = (of options g).conflicts := by
  change ((of options g).states.zipIdx.flatMap fun s => s.1.conflicts g (.of options'.method g) s.2) = _
  rw [hmethod]
  rfl

/-- The tables of one method differ in what is shifted and reduced, if at all. -/
theorem tables_congr (hmethod : options'.method = options.method)
    (hshift : (Tables.of options' g).shift = (Tables.of options g).shift)
    (hreduce : (Tables.of options' g).reduce = (Tables.of options g).reduce) :
    Tables.of options' g = Tables.of options g := by
  have hlookahead : (of options' g).lookahead = (of options g).lookahead := congrArg (Lookahead.of · g) hmethod
  have hcount : ∀ kind, (of options' g).count kind = (of options g).count kind := by
    intro kind
    rw [count, count, conflicts_congr hmethod]
  refine (Tables.mk.injEq ..).mpr ⟨rfl, rfl, rfl, hshift, rfl, hreduce, rfl, rfl, ?_, ?_, ?_⟩
  · rw [hlookahead]
  · rw [hcount]
  · rw [hcount]

/-- Build options decide conflicts and nothing else. States and edges are the same under all of them; SLR only drops
conflicts of LR(0), and terminals of them. The choices matter to the tables only where a conflict is reported, and where
shifts are preferred the methods make no difference to what is shifted and reduced. -/
theorem options_decide_conflicts (g : Grammar) (options options' : Options) :
    (of options' g).states = (of options g).states ∧ (of options' g).reused = (of options g).reused ∧
    (options'.onReduceReduce = options.onReduceReduce → ∀ n, (of options' g).reduce? n = (of options g).reduce? n) ∧
    (options.method = .slr → options'.method = .lr0 → ∀ c ∈ (of options g).conflicts,
      ∃ c' ∈ (of options' g).conflicts, c'.state = c.state ∧ c'.kind = c.kind ∧
        (c.kind = .shiftReduce → c.symbols ⊆ c'.symbols)) ∧
    (∀ n, (∃ c ∈ (of options' g).conflicts, c.state = n ∧ c.kind = .reduceReduce) ↔
      ∃ c ∈ (of options g).conflicts, c.state = n ∧ c.kind = .reduceReduce) ∧
    (options.onShiftReduce = .shift → options'.onShiftReduce = .shift →
      (Tables.of options' g).shift = (Tables.of options g).shift ∧
      (Tables.of options' g).goto = (Tables.of options g).goto ∧
      (options'.onReduceReduce = options.onReduceReduce →
        (Tables.of options' g).reduce = (Tables.of options g).reduce)) ∧
    (options'.method = options.method → (of options g).conflicts = [] → Tables.of options' g = Tables.of options g) := by
  refine ⟨rfl, rfl, ?kept, exists_conflict_lr0, fun n => ⟨reduceReduce_of_options, reduceReduce_of_options⟩,
    fun h h' => ⟨shift_congr (.inl h) (.inl h'), rfl, fun hsame => reduce_congr (.inl hsame)⟩, ?tables⟩
  case kept =>
    intro hsame n
    have hkept : (of options' g).kept? = (of options g).kept? :=
      funext fun _ => ReduceReduceChoice.keep_congr (.inl hsame)
    rw [reduce?, reduce?, hkept]
    rfl
  case tables =>
    intro hmethod hnone
    have hnone' : (of options' g).conflicts = [] := (conflicts_congr hmethod).trans hnone
    exact tables_congr hmethod (shift_congr (.inr hnone) (.inr hnone')) (reduce_congr (.inr hnone))

open Grammar

/-- Nested brackets have no conflict under SLR, so all choices make the same tables. Three competing productions
compete under LR(0) as well, and where shifts are preferred this is no matter of the method. -/
theorem options_decide_conflicts_threefold :
    ((of ⟨.slr, .shift, .first⟩ nested).conflicts = [] ∧
      Tables.of ⟨.slr, .reduce, .last⟩ nested = Tables.of ⟨.slr, .shift, .first⟩ nested) ∧
    (⟨1, .shiftReduce, [3, 4, 2], [2]⟩ : Conflict) ∈ (of ⟨.slr, .shift, .first⟩ threefold).conflicts ∧
    (∃ c ∈ (of ⟨.lr0, .shift, .first⟩ threefold).conflicts, c.state = 1 ∧ c.kind = .shiftReduce ∧ [2] ⊆ c.symbols) ∧
    (Tables.of ⟨.lr0, .shift, .first⟩ threefold).shift = (Tables.of ⟨.slr, .shift, .first⟩ threefold).shift ∧
    (Tables.of ⟨.lr0, .shift, .first⟩ threefold).reduce = (Tables.of ⟨.slr, .shift, .first⟩ threefold).reduce ∧
    (of ⟨.lr0, .shift, .first⟩ threefold).reduce? 1 = (of ⟨.slr, .shift, .first⟩ threefold).reduce? 1 := by
  have hnone : (of ⟨.slr, .shift, .first⟩ nested).conflicts = [] := by decide +kernel
  have hmem : (⟨1, .shiftReduce, [3, 4, 2], [2]⟩ : Conflict) ∈ (of ⟨.slr, .shift, .first⟩ threefold).conflicts := by
    decide +kernel
  obtain ⟨-, -, -, -, -, -, htables⟩ := options_decide_conflicts nested ⟨.slr, .shift, .first⟩ ⟨.slr, .reduce, .last⟩
  obtain ⟨-, -, hkept, hlr0, -, hshift, -⟩ :=
    options_decide_conflicts threefold ⟨.slr, .shift, .first⟩ ⟨.lr0, .shift, .first⟩
  obtain ⟨c, hc, hstate, hkind, hsymbols⟩ := hlr0 rfl rfl _ hmem
  obtain ⟨hshift, -, hreduce⟩ := hshift rfl rfl
  exact ⟨⟨hnone, htables rfl hnone⟩, hmem, ⟨c, hc, hstate, hkind, hsymbols rfl⟩, hshift, hreduce rfl, hkept rfl 1⟩

end Automaton

end ShiftReduce
