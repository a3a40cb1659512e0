import ShiftReduce.Proofs.Table.Lookup
import ShiftReduce.Table.Consistency

/-!
# What consistent tables promise

`consistent_iff_fits` says consistency without the order of its checks. Over consistent tables no lookup is a
fault (`Fits.total`) and every target is a state; the tables of a grammar are consistent and never shift the
end token (`fits_of`, `endFree_of`).
-/

namespace ShiftReduce

namespace Segments

/-- There is a row for each state, it ends, and what stands in it are symbols of the table and states. -/
structure Fits (s : Segments) (states : Nat) (owns : Nat → Bool) : Prop where
  count : s.offsets.length = states
  ended : ∀ w ∈ s.offsets, ∀ offset, present? w = some offset → s.terminated offset
  inside : ∀ e ∈ s.entries, ∀ x, present? e.1 = some x → owns x ∧ e.2.toNat < states

variable {s : Segments} {kind : SegmentKind} {states offset n x m : Nat} {owns : Nat → Bool}
  {rows : List (List (Nat × Nat))} {e : UInt32 × UInt32}

theorem offsetFault?_eq_none {w : UInt32} :
    s.offsetFault? kind w = none ↔ ∀ offset, present? w = some offset → s.terminated offset := by
  rw [offsetFault?]
  cases present? w <;> simp

theorem entryFault?_eq_none :
    entryFault? kind states owns e = none ↔ ∀ x, present? e.1 = some x → owns x ∧ e.2.toNat < states := by
  rw [entryFault?]
  cases present? e.1 <;> simp

theorem fault?_eq_none : s.fault? kind states owns = none ↔ s.Fits states owns := by
  rw [fault?]
  by_cases hcount : s.offsets.length = states
  · rw [if_neg (not_not_intro hcount), Option.or_eq_none_iff, List.findSome?_eq_none_iff,
      List.findSome?_eq_none_iff]
    simp only [offsetFault?_eq_none, entryFault?_eq_none]
    exact ⟨fun h => ⟨hcount, h.1, h.2⟩, fun h => ⟨h.ended, h.inside⟩⟩
  · rw [if_pos hcount]
    exact ⟨fun h => (Option.some_ne_none _ h).elim, fun h => absurd h.count hcount⟩

theorem lt_length_of_terminated (h : s.terminated offset) : offset < s.entries.length := by
  obtain ⟨e, he, -⟩ := List.any_eq_true.mp h
  have hpos := List.length_pos_of_mem he
  rw [List.length_drop] at hpos
  omega

/-- A row that ends is found. -/
theorem Fits.exists_lookup (h : s.Fits states owns) (n x : Nat) : ∃ m, s.lookup n x = .ok m := by
  have hrest : ∃ entries, s.rest n = .ok entries := by
    rw [rest]
    cases hoffset : (s.offsets[n]?).bind present? with
    | none => exact ⟨[], rfl⟩
    | some offset =>
      obtain ⟨w, hw, hoffset⟩ := Option.bind_eq_some_iff.mp hoffset
      have hlt := lt_length_of_terminated (h.ended w (List.mem_of_getElem? hw) offset hoffset)
      have hbehind : behind? offset s.entries = some (s.entries.drop offset) := by
        rw [behind?_eq, if_neg (Nat.not_lt.mpr hlt.le)]
      simp only [hbehind]
      exact ⟨_, rfl⟩
  obtain ⟨entries, hrest⟩ := hrest
  exact ⟨scan x entries, by rw [lookup, hrest]; rfl⟩

theorem mem_of_scan {entries : List (UInt32 × UInt32)} (h : scan x entries = some m) :
    ∃ e ∈ entries, present? e.1 = some x ∧ e.2.toNat = m := by
  induction entries with
  | nil => cases h
  | cons e entries ih =>
    rw [scan] at h
    split at h
    · cases h
    next hmark =>
    split at h
    · next hx =>
      exact ⟨e, List.mem_cons_self, by rw [present?, if_neg hmark, hx], Option.some.inj h⟩
    · obtain ⟨e', he', hfound⟩ := ih h
      exact ⟨e', List.mem_cons_of_mem _ he', hfound⟩

theorem mem_of_lookup (h : s.lookup n x = .ok (some m)) :
    ∃ e ∈ s.entries, present? e.1 = some x ∧ e.2.toNat = m := by
  rw [lookup, rest] at h
  split at h
  · cases h
  · next offset _ =>
    rw [behind?_eq] at h
    by_cases hlt : s.entries.length < offset
    · simp only [hlt, if_true] at h
      cases h
    · simp only [hlt, if_false] at h
      obtain ⟨e, he, hfound⟩ := mem_of_scan (Except.ok.inj h)
      exact ⟨e, List.mem_of_mem_drop he, hfound⟩

theorem mem_entries_layFrom (h : e ∈ (layFrom offset rows).entries) :
    e = (absent, absent) ∨ ∃ row ∈ rows, ∃ p ∈ row, e = entry p := by
  induction rows generalizing offset with
  | nil => exact absurd h List.not_mem_nil
  | cons row rows ih =>
    have hlater : ∀ offset, e ∈ (layFrom offset rows).entries →
        e = (absent, absent) ∨ ∃ row' ∈ row :: rows, ∃ p ∈ row', e = entry p := by
      intro offset he
      refine (ih he).imp_right ?_
      rintro ⟨row', hrow', hp⟩
      exact ⟨row', List.mem_cons_of_mem _ hrow', hp⟩
    by_cases hnil : row = []
    · subst hnil
      exact hlater offset h
    · rw [layFrom_cons_of_ne hnil] at h
      rcases List.mem_append.mp h with he | he
      · obtain ⟨p, hp, rfl⟩ := List.mem_map.mp he
        exact .inr ⟨row, List.mem_cons_self, p, hp, rfl⟩
      · rcases List.mem_cons.mp he with rfl | he
        · exact .inl rfl
        · exact hlater _ he

/-- Rows of symbols and states are laid in segments that fit. -/
theorem fits_ofRows (hsize : (ofRows rows).entries.length < UInt32.size) (hstates : rows.length < UInt32.size)
    (hrows : ∀ row ∈ rows, ∀ p ∈ row, p.1 < wordLimit ∧ owns p.1 ∧ p.2 < rows.length) :
    (ofRows rows).Fits rows.length owns where
  count := length_offsets_layFrom
  ended w hw offset hoffset := by
    obtain ⟨n, hn⟩ := List.getElem?_of_mem hw
    have hlt : n < rows.length := by
      have hn := (List.getElem?_eq_some_iff.mp hn).1
      rwa [ofRows, length_offsets_layFrom] at hn
    rcases layFrom_row 0 (List.getElem?_eq_getElem hlt) with ⟨-, habsent⟩ | ⟨k, rest, hk, hklt, hdrop⟩
    · obtain rfl := Option.some.inj (habsent.symm.trans hn)
      rw [present?_absent] at hoffset
      cases hoffset
    · obtain rfl := Option.some.inj (hk.symm.trans hn)
      rw [Nat.zero_add, present?_ofNat (lt_wordLimit hklt hsize)] at hoffset
      obtain rfl := Option.some.inj hoffset
      rw [terminated, ofRows, hdrop, List.any_eq_true]
      exact ⟨(absent, absent), by simp, by simp⟩
  inside e he x hx := by
    rcases mem_entries_layFrom he with rfl | ⟨row, hrow, p, hp, rfl⟩
    · rw [present?_absent] at hx
      cases hx
    · obtain ⟨hlt, howns, htarget⟩ := hrows row hrow p hp
      rw [entry, present?_ofNat hlt] at hx
      obtain rfl := Option.some.inj hx
      refine ⟨howns, ?_⟩
      rw [entry, toNat_numberOf (htarget.trans hstates)]
      exact htarget

end Segments

namespace Tables

/-- Every number points inside of the tables. -/
structure Fits (t : Tables) : Prop where
  states : t.stateCount ≠ 0
  terminals : t.terminalCount ≠ 0
  start : t.isNonterminal t.start.toNat
  shift : t.shift.Fits t.stateCount t.isTerminal
  goto : t.goto.Fits t.stateCount t.isNonterminal
  reduce : ∀ w ∈ t.reduce, ∀ q, present? w = some q → q < t.productionCount
  lengths : t.lengths.length = t.productionCount
  heads : ∀ w ∈ t.heads, t.isNonterminal w.toNat
  width : t.lookahead.wordsPerRow.toNat = wordsFor t.terminalCount.toNat
  words : t.lookahead.words.length = wordsFor t.terminalCount.toNat * t.productionCount

/-- No lookup of a run is a fault. -/
structure Total (t : Tables) : Prop where
  shift : ∀ n x, ∃ m, t.shift.lookup n x = .ok m
  goto : ∀ n x, ∃ m, t.goto.lookup n x = .ok m
  length : ∀ n q, t.reduce? n = some q → ∃ needed, t.length q = .ok needed
  head : ∀ n q, t.reduce? n = some q → ∃ head, t.head q = .ok head

/-- No entry lets a state shift the end token. -/
def EndFree (t : Tables) : Prop :=
  ∀ e ∈ t.shift.entries, e.1.toNat ≠ endId

instance (t : Tables) : Decidable t.EndFree :=
  inferInstanceAs (Decidable (∀ e ∈ t.shift.entries, e.1.toNat ≠ endId))

variable {t : Tables} {n q m x : Nat}

theorem headFault?_eq_none :
    t.headFault? = none ↔ t.stateCount ≠ 0 ∧ t.terminalCount ≠ 0 ∧ t.isNonterminal t.start.toNat := by
  rw [headFault?]
  by_cases hs : t.stateCount = 0
  · simp [hs]
  by_cases ht : t.terminalCount = 0
  · simp [hs, ht]
  · simp [hs, ht]

theorem reduceFault?_eq_none {w : UInt32} :
    t.reduceFault? w = none ↔ ∀ q, present? w = some q → q < t.productionCount := by
  rw [reduceFault?]
  cases present? w <;> simp

theorem productionFault?_eq_none : t.productionFault? = none ↔
    t.lengths.length = t.productionCount ∧ ∀ w ∈ t.heads, t.isNonterminal w.toNat := by
  rw [productionFault?]
  by_cases h : t.lengths.length = t.productionCount
  · simp [h, List.findSome?_eq_none_iff]
  · simp [h]

theorem lookaheadFault?_eq_none : t.lookaheadFault? = none ↔
    t.lookahead.wordsPerRow.toNat = wordsFor t.terminalCount.toNat ∧
      t.lookahead.words.length = wordsFor t.terminalCount.toNat * t.productionCount := by
  simp [lookaheadFault?]

theorem consistent_iff_fits : t.Consistent ↔ t.Fits := by
  rw [Consistent, inconsistency?]
  simp only [Option.or_eq_none_iff, headFault?_eq_none, Segments.fault?_eq_none, List.findSome?_eq_none_iff,
    reduceFault?_eq_none, productionFault?_eq_none, lookaheadFault?_eq_none]
  constructor
  · rintro ⟨⟨⟨⟨⟨⟨hs, ht, hstart⟩, hshift⟩, hgoto⟩, hreduce⟩, hlengths, hheads⟩, hwidth, hwords⟩
    exact ⟨hs, ht, hstart, hshift, hgoto, hreduce, hlengths, hheads, hwidth, hwords⟩
  · intro h
    exact ⟨⟨⟨⟨⟨⟨h.states, h.terminals, h.start⟩, h.shift⟩, h.goto⟩, h.reduce⟩, h.lengths, h.heads⟩, h.width, h.words⟩

namespace Fits

/-- No id lies between the first terminal and a sum that has wrapped, so the counts of tables with a start do not
wrap. -/
theorem symbolCount_eq (h : t.Fits) : t.symbolCount = t.terminalCount.toNat + t.nonterminalCount.toNat := by
  have hstart := h.start
  have ht := t.terminalCount.toNat_lt
  have hn := t.nonterminalCount.toNat_lt
  rw [isNonterminal, Bool.and_eq_true, decide_eq_true_eq, decide_eq_true_eq] at hstart
  rw [symbolCount, UInt32.toNat_add] at hstart ⊢
  omega

theorem lt_productionCount (h : t.Fits) (hq : t.reduce? n = some q) : q < t.productionCount := by
  obtain ⟨w, hw, hq⟩ := Option.bind_eq_some_iff.mp hq
  exact h.reduce w (List.mem_of_getElem? hw) q hq

theorem total (h : t.Fits) : t.Total where
  shift := h.shift.exists_lookup
  goto := h.goto.exists_lookup
  length n q hq := by
    have hlt := h.lt_productionCount hq
    rw [← h.lengths] at hlt
    exact ⟨_, by rw [length, ofProduction, List.getElem?_eq_getElem hlt]⟩
  head n q hq := ⟨_, by rw [head, ofProduction, List.getElem?_eq_getElem (h.lt_productionCount hq)]⟩

theorem goto_lt (h : t.Fits) (hm : t.goto.lookup n x = .ok (some m)) : m < t.stateCount := by
  obtain ⟨e, he, hx, rfl⟩ := Segments.mem_of_lookup hm
  exact (h.goto.inside e he x hx).2

end Fits

theorem EndFree.lookup_ne (h : t.EndFree) : t.shift.lookup n endId ≠ .ok (some m) := by
  intro hm
  obtain ⟨e, he, hx, -⟩ := Segments.mem_of_lookup hm
  refine h e he ?_
  rw [present?] at hx
  split at hx
  · cases hx
  · exact Option.some.inj hx

section

variable {g : Grammar} {options : Options}

theorem symbolCount_of (h : (Automaton.of options g).Sized g) : (Tables.of options g).symbolCount = g.symbols.size := by
  rw [symbolCount, UInt32.toNat_add, terminalCount_of h, nonterminalCount_of h]
  exact Nat.mod_eq_of_lt h.symbols

theorem isNonterminal_of (h : (Automaton.of options g).Sized g) (x : Nat) :
    (Tables.of options g).isNonterminal x = g.symbols.isNonterminal x := by
  rw [isNonterminal, symbolCount_of h, terminalCount_of h]
  rfl

/-- Rows that list edges of the states, those on the symbols of the table, are laid in segments that fit. -/
theorem fits_ofEdges {row : State → List (Nat × Nat)} {owns : Nat → Bool} (h : (Automaton.of options g).Sized g)
    (hsize : (Segments.ofRows ((Automaton.of options g).states.map row)).entries.length < UInt32.size)
    (hrow : ∀ s, ∀ e ∈ row s, e ∈ s.transitions ∧ owns e.1) :
    (Segments.ofRows ((Automaton.of options g).states.map row)).Fits (Tables.of options g).stateCount owns := by
  have hlen : ((Automaton.of options g).states.map row).length = (Automaton.of options g).states.length :=
    List.length_map _
  rw [stateCount_of, ← hlen]
  refine Segments.fits_ofRows hsize (hlen ▸ h.states) fun es hes e he => ?_
  obtain ⟨s, hs, rfl⟩ := List.mem_map.mp hes
  obtain ⟨n, hn⟩ := List.getElem?_of_mem hs
  obtain ⟨he, howns⟩ := hrow s e he
  obtain ⟨⟨-, hsymbol⟩, htarget⟩ := Automaton.edge_fits hn he
  exact ⟨lt_wordLimit hsymbol h.symbols, howns, hlen ▸ htarget⟩

/-- The tables of a grammar are consistent. -/
theorem fits_of_sized (h : (Automaton.of options g).Sized g) : (Tables.of options g).Fits where
  states := by
    rw [stateCount_of]
    exact Nat.ne_of_gt Automaton.length_states_pos
  terminals := by
    intro hzero
    have hcount : g.symbols.terminalCount = 0 := (terminalCount_of h).symm.trans (congrArg UInt32.toNat hzero)
    exact absurd hcount (Nat.succ_ne_zero _)
  start := by
    rw [isNonterminal_of h, start_of_sized h]
    exact g.start_nonterminal
  shift := by
    refine fits_ofEdges h h.shift fun s e he => ?_
    obtain ⟨he, hx⟩ := List.mem_filter.mp he
    rw [isTerminal_of_sized h]
    exact ⟨he, (Bool.and_eq_true_iff.mp hx).1⟩
  goto := by
    refine fits_ofEdges h h.goto fun s e he => ?_
    obtain ⟨he, hx⟩ := List.mem_filter.mp he
    rw [isNonterminal_of h]
    exact ⟨he, hx⟩
  reduce w hw q hq := by
    obtain ⟨n, hn⟩ := List.getElem?_of_mem hw
    have hreduce : (Tables.of options g).reduce? n = some q := by rw [reduce?, hn, Option.bind_some, hq]
    rw [reduce?_of_sized h] at hreduce
    obtain ⟨p, hp, -⟩ := Automaton.complete_of_reduce? hreduce
    change q < (g.productions.map fun p => UInt32.ofNat p.lhs).length
    rw [List.length_map]
    exact (List.getElem?_eq_some_iff.mp hp).1
  lengths := by
    change (g.productions.map fun p => UInt32.ofNat p.rhs.length).length =
      (g.productions.map fun p => UInt32.ofNat p.lhs).length
    rw [List.length_map, List.length_map]
  heads w hw := by
    obtain ⟨p, hp, rfl⟩ := List.mem_map.mp hw
    have hlhs := (g.fits p hp).lhs
    rw [isNonterminal_of h, toNat_ofNat (lt_wordLimit (g.symbols.lt_size_of_isNonterminal hlhs) h.symbols)]
    exact hlhs
  width := by
    have ht : g.symbols.terminalCount < UInt32.size := (Nat.le_add_right _ _).trans_lt h.symbols
    rw [terminalCount_of h]
    refine UInt32.toNat_ofNat_of_lt' ?_
    rw [wordsFor]
    omega
  words := by
    have hsets : (options.method.sets g).length = g.productions.length := by
      cases options.method <;> exact List.length_map _
    change ((options.method.sets g).flatMap (BitRows.pack (wordsFor g.symbols.terminalCount))).length =
      wordsFor (Tables.of options g).terminalCount.toNat * (g.productions.map fun p => UInt32.ofNat p.lhs).length
    rw [terminalCount_of h, List.length_map, ← hsets]
    simp [List.length_flatMap, BitRows.pack, Nat.mul_comm]

theorem fits_of (h : (Automaton.of options g).Small g) : (Tables.of options g).Fits :=
  fits_of_sized h.sized

/-- The end token stands in no right-hand side, so no item waits for it. -/
theorem endFree_of (h : (Automaton.of options g).Small g) : (Tables.of options g).EndFree := by
  intro e he
  rcases Segments.mem_entries_layFrom he with rfl | ⟨row, hrow, p, hp, rfl⟩
  · decide
  · obtain ⟨s, hs, rfl⟩ := List.mem_map.mp hrow
    obtain ⟨n, hn⟩ := List.getElem?_of_mem hs
    obtain ⟨⟨hne, hsymbol⟩, -⟩ := Automaton.edge_fits hn (List.mem_filter.mp hp).1
    rw [Segments.entry, toNat_ofNat (hsymbol.trans h.symbols)]
    exact hne

end

end Tables

end ShiftReduce
