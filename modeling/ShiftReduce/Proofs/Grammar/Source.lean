import ShiftReduce.Proofs.Grammar.Lines

/-!
# Sources that load

The lines of a source describe a draft (`Describes`), and the source loads if the draft is sound. Told by the lines,
`load_isOk_iff`: every production line has a head above it, the terminals are told apart, no production stands under
a terminal, and every name in a production is declared. A head that is a terminal and has no production line is
passed over, so well-formed sources (`WellFormed`) are those that load and have no such head (`wellFormed_iff`).
-/

namespace ShiftReduce.Source

variable {source : String} {raws : List (List Char)} {lines : List SourceLine} {numbered : List (Nat × SourceLine)}
  {d : Draft} {g : Grammar} {rules : List Rule} {head name : String} {head? : Option String} {names : List String}

/-- The draft has the terminals of the lines, the first occurrences of the heads that are no terminals, and the rules
of the production lines. -/
structure Describes (lines : List SourceLine) (d : Draft) : Prop where
  terminals : d.terminals = declaredIn lines
  nonterminals : d.nonterminals = distinct ((headsIn lines).filter (· ∉ declaredIn lines))
  rules : productionLines none lines = d.rules.map Rule.line

theorem mem_rules_iff (h : productionLines none lines = rules.map Rule.line) (r : Rule) :
    r ∈ rules ↔ Stands lines (some r.head) r.body := by
  rw [← mem_productionLines, h, List.mem_map]
  constructor
  · intro hr
    exact ⟨r, hr, rfl⟩
  · rintro ⟨s, hs, hline⟩
    obtain rfl : s = r := Rule.line_eq.mp hline
    exact hs

theorem Stands.mem_headsIn (h : Stands lines (some head) names) : head ∈ headsIn lines := by
  obtain ⟨before, after, rfl, hlast⟩ := h
  rw [headsIn, List.filterMap_append]
  exact List.mem_append_left _ (List.mem_of_getLast? hlast)

/-- Terminals and heads are declared, so the rules declare nothing. -/
theorem foldl_declared (h : productionLines none lines = rules.map Rule.line) :
    rules.foldl Draft.rule (((headsIn lines).filter (· ∉ declaredIn lines)).foldl Draft.nonterminal
      ((declaredIn lines).foldl Draft.terminal Draft.empty)) =
    ⟨declaredIn lines, distinct ((headsIn lines).filter (· ∉ declaredIn lines)), rules⟩ := by
  have hheads : ∀ r ∈ rules, r.head ∈ declaredIn lines ∨
      r.head ∈ distinct ((headsIn lines).filter (· ∉ declaredIn lines)) := by
    intro r hr
    have hmem := ((mem_rules_iff h r).mp hr).mem_headsIn
    by_cases hterminal : r.head ∈ declaredIn lines
    · exact .inl hterminal
    · exact .inr (mem_distinct.mpr (List.mem_filter.mpr ⟨hmem, by simpa using hterminal⟩))
  rw [Draft.foldl_terminal, Draft.foldl_nonterminal]
  exact Draft.foldl_rule hheads

theorem draftOf_eq_ok : draftOf numbered = .ok d ↔ Describes (numbered.map Prod.snd) d := by
  unfold draftOf
  simp only [bind_eq_ok, pure, Except.pure, Except.ok.injEq, rulesFrom_eq_ok, terminalNames_eq, headNames_eq]
  constructor
  · rintro ⟨rules, hrules, rfl⟩
    rw [foldl_declared hrules]
    exact ⟨rfl, rfl, hrules⟩
  · rintro ⟨hterminals, hnonterminals, hrules⟩
    exact ⟨d.rules, hrules, by rw [foldl_declared hrules, ← hnonterminals, ← hterminals]⟩

/-- A source loads as the grammar that the draft of its lines builds. -/
theorem load_eq_ok : load source = .ok g ↔
    ∃ lines, List.Forall₂ Reads (Text.lines source.toList) lines ∧ ∃ d, Describes lines d ∧ d.build = .ok g := by
  have hbuild (d : Draft) : d.build.mapError SourceError.grammar = .ok g ↔ d.build = .ok g := by
    cases d.build <;> simp [Except.mapError]
  simp only [load, draft, bind_eq_ok, draftOf_eq_ok, hbuild, ← exists_readLines]
  constructor
  · rintro ⟨d, ⟨numbered, hnumbered, hd⟩, hg⟩
    exact ⟨_, ⟨numbered, hnumbered, rfl⟩, d, hd, hg⟩
  · rintro ⟨_, ⟨numbered, hnumbered, rfl⟩, d, hd, hg⟩
    exact ⟨d, ⟨numbered, hnumbered, hd⟩, hg⟩

/-- The production lines stand under heads, the terminals are told apart, and the names in the production lines are
those of terminals and heads. -/
structure Shaped (lines : List SourceLine) : Prop where
  headed : ∀ names, ¬ Stands lines none names
  nodup : (declaredIn lines).Nodup
  endName_not_mem : endName ∉ declaredIn lines
  known : ∀ head names, Stands lines head names → ∀ name ∈ names,
    (name ∈ declaredIn lines ∨ name ∈ headsIn lines) ∧ name ≠ endName

/-- There is a head, and the heads are no terminals and have production lines. -/
structure WellFormed (lines : List SourceLine) : Prop extends Shaped lines where
  heads_ne_nil : headsIn lines ≠ []
  fresh : ∀ head ∈ headsIn lines, head ∉ declaredIn lines
  used : ∀ head ∈ headsIn lines, ∃ names, Stands lines (some head) names

/-- There is a head that is no terminal; heads with production lines are no terminals, and the heads without are. -/
structure Loadable (lines : List SourceLine) : Prop extends Shaped lines where
  exists_head : ∃ head ∈ headsIn lines, head ∉ declaredIn lines
  fresh : ∀ head names, Stands lines (some head) names → head ∉ declaredIn lines
  used : ∀ head ∈ headsIn lines, head ∉ declaredIn lines → ∃ names, Stands lines (some head) names

theorem wellFormed_iff : WellFormed lines ↔ Loadable lines ∧ ∀ head ∈ headsIn lines, head ∉ declaredIn lines := by
  constructor
  · intro h
    obtain ⟨head, hhead⟩ := List.exists_mem_of_ne_nil _ h.heads_ne_nil
    refine ⟨⟨h.toShaped, ⟨head, hhead, h.fresh head hhead⟩, fun head names hstands => ?_, fun head hhead _ => ?_⟩,
      h.fresh⟩
    · exact h.fresh head hstands.mem_headsIn
    · exact h.used head hhead
  · rintro ⟨h, hfresh⟩
    obtain ⟨head, hhead, -⟩ := h.exists_head
    exact ⟨h.toShaped, List.ne_nil_of_mem hhead, hfresh, fun head hhead => h.used head hhead (hfresh head hhead)⟩

theorem isIdentifier_of_mem_headsIn (h : List.Forall₂ Reads raws lines) (hname : name ∈ headsIn lines) :
    isIdentifier name.toList := by
  induction h with
  | nil => cases hname
  | @cons raw line _ _ hread _ ih =>
    rw [headsIn_cons] at hname
    rcases List.mem_append.mp hname with hname | hname
    · exact hread.isIdentifier (Option.mem_toList.mp hname)
    · exact ih hname

theorem endName_not_mem_headsIn (h : List.Forall₂ Reads raws lines) : endName ∉ headsIn lines :=
  fun hname => absurd (isIdentifier_of_mem_headsIn h hname) (by decide)

namespace Describes

variable (hd : Describes lines d)

include hd

theorem mem_nonterminals : name ∈ d.nonterminals ↔ name ∈ headsIn lines ∧ name ∉ declaredIn lines := by
  rw [hd.nonterminals, mem_distinct, List.mem_filter]
  simp

theorem exists_rule (h : Stands lines head? names) : ∃ r ∈ d.rules, r.line = (head?, names) := by
  rw [← mem_productionLines, hd.rules] at h
  exact List.mem_map.mp h

theorem loadable (hsound : d.Sound) : Loadable lines := by
  obtain ⟨hend, hnodup⟩ := List.nodup_cons.mp hsound.nodup
  refine { headed := ?_, nodup := ?_, endName_not_mem := ?_, known := ?_, exists_head := ?_, fresh := ?_, used := ?_ }
  · intro names hstands
    obtain ⟨r, -, hline⟩ := hd.exists_rule hstands
    cases hline
  · rw [← hd.terminals]
    exact (List.nodup_append.mp hnodup).1
  · rw [← hd.terminals]
    exact fun hname => hend (List.mem_append_left _ hname)
  · intro head names hstands name hname
    obtain ⟨r, hr, hline⟩ := hd.exists_rule hstands
    obtain ⟨-, rfl⟩ := Prod.mk.inj hline
    rcases hsound.body_mem r hr name hname with hmem | hmem
    · refine ⟨.inl (hd.terminals ▸ hmem), ?_⟩
      rintro rfl
      exact hend (List.mem_append_left _ hmem)
    · refine ⟨.inr (hd.mem_nonterminals.mp hmem).1, ?_⟩
      rintro rfl
      exact hend (List.mem_append_right _ hmem)
  · obtain ⟨name, hname⟩ := List.exists_mem_of_ne_nil _ hsound.nonterminals_ne_nil
    exact ⟨name, hd.mem_nonterminals.mp hname⟩
  · intro head names hstands
    have hmem := hsound.head_mem ⟨head, names⟩ ((mem_rules_iff hd.rules _).mpr hstands)
    exact (hd.mem_nonterminals.mp hmem).2
  · intro head hhead hfresh
    obtain ⟨r, hr, rfl⟩ := hsound.headed head (hd.mem_nonterminals.mpr ⟨hhead, hfresh⟩)
    exact ⟨r.body, (mem_rules_iff hd.rules r).mp hr⟩

theorem sound (hends : endName ∉ headsIn lines) (h : Loadable lines) : d.Sound := by
  have hstands : ∀ r ∈ d.rules, Stands lines (some r.head) r.body := fun r => (mem_rules_iff hd.rules r).mp
  refine { nodup := ?_, nonterminals_ne_nil := ?_, head_mem := ?_, body_mem := ?_, headed := ?_ }
  · refine List.nodup_cons.mpr ⟨fun hend => ?_, List.nodup_append.mpr ⟨?_, ?_, fun name hname other hother => ?_⟩⟩
    · rcases List.mem_append.mp hend with hend | hend
      · exact h.endName_not_mem (hd.terminals ▸ hend)
      · exact hends (hd.mem_nonterminals.mp hend).1
    · rw [hd.terminals]
      exact h.nodup
    · rw [hd.nonterminals]
      exact nodup_distinct
    · rintro rfl
      exact (hd.mem_nonterminals.mp hother).2 (hd.terminals ▸ hname)
  · obtain ⟨head, hhead⟩ := h.exists_head
    exact List.ne_nil_of_mem (hd.mem_nonterminals.mpr hhead)
  · intro r hr
    exact hd.mem_nonterminals.mpr ⟨(hstands r hr).mem_headsIn, h.fresh _ _ (hstands r hr)⟩
  · intro r hr name hname
    rw [hd.mem_nonterminals, hd.terminals]
    by_cases hterminal : name ∈ declaredIn lines
    · exact .inl hterminal
    · exact .inr ⟨(h.known _ _ (hstands r hr) name hname).1.resolve_left hterminal, hterminal⟩
  · intro name hname
    obtain ⟨hhead, hfresh⟩ := hd.mem_nonterminals.mp hname
    obtain ⟨names, hbody⟩ := h.used name hhead hfresh
    exact ⟨⟨name, names⟩, (mem_rules_iff hd.rules _).mpr hbody, rfl⟩

end Describes

theorem Shaped.exists_describes (h : Shaped lines) : ∃ d, Describes lines d := by
  have hline : ∀ p ∈ productionLines none lines, ∃ r : Rule, True ∧ r.line = p := by
    rintro ⟨head, names⟩ hp
    have hstands := mem_productionLines.mp hp
    cases head with
    | none => exact absurd hstands (h.headed names)
    | some head => exact ⟨⟨head, names⟩, trivial, rfl⟩
  obtain ⟨rules, -, hrules⟩ := exists_map_eq hline
  exact ⟨⟨_, _, rules⟩, rfl, rfl, hrules.symm⟩

/-- A source loads if and only if it has the lines of a grammar, where a head that is a terminal and has no production
line does not count. -/
theorem load_isOk_iff (source : String) : (∃ g, load source = .ok g) ↔
    ∃ lines, List.Forall₂ Reads (Text.lines source.toList) lines ∧ Loadable lines := by
  constructor
  · rintro ⟨g, hg⟩
    obtain ⟨lines, hlines, d, hd, hbuild⟩ := load_eq_ok.mp hg
    exact ⟨lines, hlines, hd.loadable (Draft.exists_build_iff.mp ⟨g, hbuild⟩)⟩
  · rintro ⟨lines, hlines, h⟩
    obtain ⟨d, hd⟩ := h.exists_describes
    obtain ⟨g, hg⟩ := Draft.exists_build_iff.mpr (hd.sound (endName_not_mem_headsIn hlines) h)
    exact ⟨g, load_eq_ok.mpr ⟨lines, hlines, d, hd, hg⟩⟩

/-- Not every source that loads is well formed: the second head here is a terminal. -/
theorem load_passes_terminal_head : ¬ ∀ source : String, (∃ g, load source = .ok g) ↔
    ∃ lines, List.Forall₂ Reads (Text.lines source.toList) lines ∧ WellFormed lines := by
  intro h
  let source := "%token a\nS:\n    a\na:\n"
  have hload : ∃ g, load source = .ok g := by
    have hok : (load source).toOption.isSome := by decide
    cases hg : load source with
    | error fault => rw [hg] at hok; cases hok
    | ok g => exact ⟨g, rfl⟩
  have hread : readLines source = .ok [(1, .tokens ["a"]), (2, .head "S"), (3, .body ["a"]), (4, .head "a")] := by
    decide
  obtain ⟨lines, hlines, hwell⟩ := (h source).mp hload
  obtain ⟨numbered, hnumbered, rfl⟩ := exists_readLines.mpr hlines
  obtain rfl := Except.ok.inj (hnumbered.symm.trans hread)
  exact hwell.fresh "a" (by decide) (by decide)

end ShiftReduce.Source
