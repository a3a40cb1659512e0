import ShiftReduce.Grammar.Draft
import ShiftReduce.Proofs.Distinct
import ShiftReduce.Proofs.Except
import ShiftReduce.Proofs.Grammar.Vocabulary

/-!
# What a draft builds

A production and the rule that names it belong together one to one (`Vocabulary.production?_eq_ok`). So a draft builds
a grammar of which the names are known, and the productions are the rules without repeats (`Draft.build_eq_ok`), and
it builds one exactly if it is sound (`Draft.exists_build_iff`).
-/

namespace ShiftReduce

/-- The ids are ids of symbols. -/
structure Production.InRange (v : Vocabulary) (p : Production) : Prop where
  lhs : p.lhs < v.size
  rhs : ∀ x ∈ p.rhs, x < v.size

namespace Production

variable {v : Vocabulary} {p : Production}

theorem Fits.inRange (h : p.Fits v) : p.InRange v where
  lhs := v.lt_size_of_isNonterminal h.lhs
  rhs x hx := (h.rhs x hx).2

theorem fault?_eq_none (h : p.Fits v) : p.fault? v = none := by
  have hlt := v.lt_size_of_isNonterminal h.lhs
  rw [fault?, if_neg (Nat.not_le.mpr hlt), if_neg (v.not_isTerminal_of_isNonterminal h.lhs),
    List.findSome?_eq_none_iff]
  intro x hx
  rw [Vocabulary.bodyFault?, if_neg (Nat.not_le.mpr (h.rhs x hx).2), if_neg (h.rhs x hx).1]

end Production

/-- What makes a grammar makes it without a fault. -/
theorem Grammar.of?_eq_ok {v : Vocabulary} {ps : List Production} {start : Nat} {g : Grammar} :
    of? v ps start = .ok g ↔ g.symbols = v ∧ g.productions = ps ∧ g.start = start := by
  constructor
  · intro h
    unfold of? at h
    split at h
    · cases h
    · obtain rfl := Except.ok.inj h
      exact ⟨rfl, rfl, rfl⟩
  · rintro ⟨rfl, rfl, rfl⟩
    have hsome : g.symbols.nonterminals.isEmpty = false := by
      obtain ⟨hle, hlt⟩ := g.symbols.isNonterminal_iff.mp g.start_nonterminal
      rw [Vocabulary.size] at hlt
      rw [List.isEmpty_eq_false_iff, ← List.length_pos_iff]
      omega
    have hproductions : g.productions.findSome? (·.fault? g.symbols) = none :=
      List.findSome?_eq_none_iff.mpr fun p hp => Production.fault?_eq_none (g.fits p hp)
    have hheaded : g.symbols.nonterminalIds.find? (fun a => !g.productions.any (·.lhs == a)) = none := by
      refine List.find?_eq_none.mpr fun a ha => ?_
      obtain ⟨p, hp, rfl⟩ := g.headed a ha
      simpa using ⟨p, hp, rfl⟩
    have hfault : fault? g.symbols g.productions g.start = none := by
      simp only [fault?, hsome, g.start_nonterminal, hproductions, hheaded]
      rfl
    unfold of?
    split
    · next h => rw [hfault] at h; cases h
    · rfl

namespace Vocabulary

variable {v : Vocabulary} {r : Rule} {p q : Production} {ps qs : List Production}

/-- The production in names. -/
def rule (v : Vocabulary) (p : Production) : Rule :=
  ⟨v.name p.lhs, p.rhs.map v.name⟩

theorem production?_eq_ok : v.production? r = .ok p ↔ p.InRange v ∧ v.rule p = r := by
  unfold production?
  simp only [bind_eq_ok, resolve_eq_ok, mapM_eq_ok fun _ _ => resolve_eq_ok (v := v), pure,
    Except.pure, Except.ok.injEq]
  constructor
  · rintro ⟨lhs, ⟨hlhs, hhead⟩, rhs, ⟨hrhs, hbody⟩, rfl⟩
    exact ⟨⟨hlhs, hrhs⟩, by rw [rule, hhead, hbody]⟩
  · rintro ⟨⟨hlhs, hrhs⟩, rfl⟩
    exact ⟨p.lhs, ⟨hlhs, rfl⟩, p.rhs, ⟨hrhs, rfl⟩, rfl⟩

theorem mapM_production?_eq_ok {rs : List Rule} :
    rs.mapM v.production? = .ok ps ↔ (∀ p ∈ ps, p.InRange v) ∧ ps.map v.rule = rs :=
  mapM_eq_ok fun _ _ => production?_eq_ok

theorem rule_inj (hp : p.InRange v) (hq : q.InRange v) (h : v.rule p = v.rule q) : p = q := by
  have hresolve := production?_eq_ok.mpr ⟨hp, rfl⟩
  rw [h, production?_eq_ok.mpr ⟨hq, rfl⟩] at hresolve
  exact (Except.ok.inj hresolve).symm

theorem map_rule_inj (hp : ∀ p ∈ ps, p.InRange v) (hq : ∀ q ∈ qs, q.InRange v) (h : ps.map v.rule = qs.map v.rule) :
    ps = qs := by
  have hresolve := mapM_production?_eq_ok.mpr ⟨hp, rfl⟩
  rw [h, mapM_production?_eq_ok.mpr ⟨hq, rfl⟩] at hresolve
  exact (Except.ok.inj hresolve).symm

theorem map_distinct_rule (h : ∀ p ∈ ps, p.InRange v) : (distinct ps).map v.rule = distinct (ps.map v.rule) :=
  map_distinct fun p hp q hq => rule_inj (h p hp) (h q hq)

end Vocabulary

namespace Draft

variable {d : Draft} {g : Grammar}

/-- A draft builds the grammar with its names of which the productions are its rules, each where it occurs first. -/
theorem build_eq_ok : d.build = .ok g ↔ g.symbols.terminals = d.terminals ∧ g.symbols.nonterminals = d.nonterminals ∧
    g.start = g.symbols.terminalCount ∧ g.productions.map g.symbols.rule = distinct d.rules := by
  unfold build vocabulary
  simp only [bind_eq_ok, Vocabulary.of?_eq_ok, Vocabulary.mapM_production?_eq_ok, Grammar.of?_eq_ok]
  constructor
  · rintro ⟨v, ⟨hterminals, hnonterminals⟩, ps, ⟨hrange, hrules⟩, rfl, hproductions, hstart⟩
    refine ⟨hterminals, hnonterminals, hstart, ?_⟩
    rw [hproductions, Vocabulary.map_distinct_rule hrange, hrules]
  · rintro ⟨hterminals, hnonterminals, hstart, hrules⟩
    have hrange : ∀ p ∈ g.productions, p.InRange g.symbols := fun p hp => (g.fits p hp).inRange
    -- every rule names one of the productions of the grammar
    have hnamed : ∀ r ∈ d.rules, ∃ p, p ∈ g.productions ∧ g.symbols.rule p = r := by
      intro r hr
      rw [← mem_distinct, ← hrules] at hr
      exact List.mem_map.mp hr
    obtain ⟨ps, hmem, hmap⟩ := exists_map_eq hnamed
    have hps : ∀ p ∈ ps, p.InRange g.symbols := fun p hp => hrange p (hmem p hp)
    refine ⟨g.symbols, ⟨hterminals, hnonterminals⟩, ps, ⟨hps, hmap⟩, rfl, ?_, hstart⟩
    refine Vocabulary.map_rule_inj hrange (fun p hp => hps p (mem_distinct.mp hp)) ?_
    rw [hrules, Vocabulary.map_distinct_rule hps, hmap]

/-- The names are told apart, every name in a rule is one of them, and the nonterminals are the heads of the rules. -/
structure Sound (d : Draft) : Prop where
  nodup : (endName :: (d.terminals ++ d.nonterminals)).Nodup
  nonterminals_ne_nil : d.nonterminals ≠ []
  head_mem : ∀ r ∈ d.rules, r.head ∈ d.nonterminals
  body_mem : ∀ r ∈ d.rules, ∀ name ∈ r.body, name ∈ d.terminals ∨ name ∈ d.nonterminals
  headed : ∀ name ∈ d.nonterminals, ∃ r ∈ d.rules, r.head = name

theorem sound_of_build (h : d.build = .ok g) : d.Sound := by
  obtain ⟨hterminals, hnonterminals, -, hrules⟩ := build_eq_ok.mp h
  have hnamed : ∀ r, r ∈ d.rules ↔ ∃ p ∈ g.productions, g.symbols.rule p = r := by
    intro r
    rw [← mem_distinct, ← hrules, List.mem_map]
  refine ⟨?_, ?_, fun r hr => ?_, fun r hr name hname => ?_, fun name hname => ?_⟩
  · rw [← hterminals, ← hnonterminals]
    exact g.symbols.nodup
  · have hstart := Vocabulary.mem_nonterminals_iff.mpr ⟨g.start, g.start_nonterminal, rfl⟩
    rw [hnonterminals] at hstart
    exact List.ne_nil_of_mem hstart
  · obtain ⟨p, hp, rfl⟩ := (hnamed r).mp hr
    rw [← hnonterminals]
    exact Vocabulary.mem_nonterminals_iff.mpr ⟨p.lhs, (g.fits p hp).lhs, rfl⟩
  · obtain ⟨p, hp, rfl⟩ := (hnamed r).mp hr
    obtain ⟨x, hx, rfl⟩ := List.mem_map.mp hname
    obtain ⟨hne, hlt⟩ := (g.fits p hp).rhs x hx
    rw [← hterminals, ← hnonterminals]
    rcases g.symbols.isTerminal_or_isNonterminal hlt with hx | hx
    · exact .inl (Vocabulary.mem_terminals_iff.mpr ⟨x, hx, hne, rfl⟩)
    · exact .inr (Vocabulary.mem_nonterminals_iff.mpr ⟨x, hx, rfl⟩)
  · rw [← hnonterminals] at hname
    obtain ⟨x, hx, rfl⟩ := Vocabulary.mem_nonterminals_iff.mp hname
    obtain ⟨p, hp, rfl⟩ := g.headed x (g.symbols.mem_nonterminalIds.mpr hx)
    exact ⟨g.symbols.rule p, (hnamed _).mpr ⟨p, hp, rfl⟩, rfl⟩

namespace Sound

variable (hd : d.Sound)

include hd

/-- A rule of a sound draft names a production over its symbols. -/
theorem exists_fits {v : Vocabulary} (hterminals : v.terminals = d.terminals)
    (hnonterminals : v.nonterminals = d.nonterminals) {r : Rule} (hr : r ∈ d.rules) : ∃ p, p.Fits v ∧ v.rule p = r := by
  have hhead := hd.head_mem r hr
  rw [← hnonterminals] at hhead
  obtain ⟨lhs, hlhs, hname⟩ := Vocabulary.mem_nonterminals_iff.mp hhead
  have hbody : ∀ name ∈ r.body, ∃ x, (x ≠ endId ∧ x < v.size) ∧ v.name x = name := by
    intro name hname
    have hmem := hd.body_mem r hr name hname
    rw [← hterminals, ← hnonterminals] at hmem
    rcases hmem with hmem | hmem
    · obtain ⟨x, hx, hne, rfl⟩ := Vocabulary.mem_terminals_iff.mp hmem
      exact ⟨x, ⟨hne, v.lt_size_of_isTerminal hx⟩, rfl⟩
    · obtain ⟨x, hx, rfl⟩ := Vocabulary.mem_nonterminals_iff.mp hmem
      refine ⟨x, ⟨?_, v.lt_size_of_isNonterminal hx⟩, rfl⟩
      rintro rfl
      exact v.not_isTerminal_of_isNonterminal hx v.isTerminal_endId
  obtain ⟨rhs, hrhs, hmap⟩ := exists_map_eq hbody
  exact ⟨⟨lhs, rhs⟩, ⟨hlhs, hrhs⟩, by rw [Vocabulary.rule, hname, hmap]⟩

theorem exists_build : ∃ g, d.build = .ok g := by
  let v : Vocabulary := ⟨d.terminals, d.nonterminals, hd.nodup⟩
  obtain ⟨ps, hfits, hmap⟩ := exists_map_eq fun r hr => hd.exists_fits (v := v) rfl rfl hr
  have hstart : v.isNonterminal v.terminalCount :=
    v.isNonterminal_iff.mpr ⟨Nat.le_refl _, Nat.lt_add_of_pos_right (List.length_pos_iff.mpr hd.nonterminals_ne_nil)⟩
  have hheaded : ∀ a ∈ v.nonterminalIds, ∃ p ∈ distinct ps, p.lhs = a := by
    intro a ha
    have ha := v.mem_nonterminalIds.mp ha
    obtain ⟨r, hr, hname⟩ := hd.headed (v.name a) (Vocabulary.mem_nonterminals_iff.mpr ⟨a, ha, rfl⟩)
    rw [← hmap] at hr
    obtain ⟨p, hp, rfl⟩ := List.mem_map.mp hr
    refine ⟨p, mem_distinct.mpr hp, ?_⟩
    exact Vocabulary.name_inj (hfits p hp).inRange.lhs (v.lt_size_of_isNonterminal ha) hname
  refine ⟨⟨v, distinct ps, v.terminalCount, hstart, fun p hp => hfits p (mem_distinct.mp hp), hheaded⟩,
    build_eq_ok.mpr ⟨rfl, rfl, rfl, ?_⟩⟩
  rw [Vocabulary.map_distinct_rule fun p hp => (hfits p hp).inRange, hmap]

end Sound

theorem exists_build_iff : (∃ g, d.build = .ok g) ↔ d.Sound :=
  ⟨fun ⟨_, h⟩ => sound_of_build h, Sound.exists_build⟩

theorem foldl_terminal (names : List String) (d : Draft) :
    names.foldl terminal d = { d with terminals := d.terminals ++ names } := by
  induction names generalizing d with
  | nil => simp
  | cons name names ih => rw [List.foldl_cons, ih, terminal, List.append_assoc, List.singleton_append]

theorem foldl_nonterminal (names : List String) (d : Draft) : names.foldl nonterminal d =
    { d with nonterminals := d.nonterminals ++ distinctFrom d.nonterminals names } := by
  induction names generalizing d with
  | nil => simp [distinctFrom]
  | cons name names ih =>
    rw [List.foldl_cons, ih, nonterminal, distinctFrom]
    split
    · rfl
    · have hseen : ∀ other, other ∈ d.nonterminals ++ [name] ↔ other ∈ name :: d.nonterminals := by simp [or_comm]
      simp [distinctFrom_congr hseen]

/-- Rules with heads that are declared declare nothing. -/
theorem foldl_rule {rules : List Rule} {d : Draft} (h : ∀ r ∈ rules, r.head ∈ d.terminals ∨ r.head ∈ d.nonterminals) :
    rules.foldl rule d = { d with rules := d.rules ++ rules } := by
  induction rules generalizing d with
  | nil => simp
  | cons r rules ih =>
    obtain ⟨hr, hrules⟩ := List.forall_mem_cons.mp h
    have hdeclared : d.rule r = { d with rules := d.rules ++ [r] } := by
      unfold rule nonterminal
      split
      · rfl
      · next hterminal => rw [if_pos (hr.resolve_left hterminal)]
    have hrest := ih (d := { d with rules := d.rules ++ [r] }) hrules
    rw [List.foldl_cons, hdeclared, hrest, List.append_assoc, List.singleton_append]

end Draft

end ShiftReduce
