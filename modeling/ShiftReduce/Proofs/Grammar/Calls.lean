import Mathlib.Data.List.Induction
import ShiftReduce.Proofs.Grammar.Draft
import ShiftReduce.Proofs.Grammar.Index

/-!
# Drafts made by calls

A draft is made by calls, one after the other, and what a call adds depends on those before it: the head of a rule is a
nonterminal unless it is a terminal by then. `Draft.ofCalls_eq` says what the calls leave, without a draft. The draft
builds a grammar exactly if the calls are sound (`Draft.Buildable`), and it is then the grammar that they describe
(`Draft.Built`, `Draft.build_ofCalls`).
-/

namespace ShiftReduce.Draft

/-- A call that adds to a draft. -/
inductive Call
  | terminal (name : String)
  | terminals (names : List String)
  | nonterminal (name : String)
  | rule (r : Rule)

namespace Call

/-- The terminals that a call declares. -/
def terminalNames : Call → List String
  | terminal name => [name]
  | terminals names => names
  | nonterminal _ | rule _ => []

def rules : Call → List Rule
  | rule r => [r]
  | terminal _ | terminals _ | nonterminal _ => []

/-- The names that a call behind these terminals makes nonterminals. -/
def introduces (terminalsBefore : List String) : Call → List String
  | nonterminal name => [name]
  | rule r => if r.head ∈ terminalsBefore then [] else [r.head]
  | terminal _ | terminals _ => []

theorem mem_introduces {terminalsBefore : List String} {c : Call} {name : String} :
    name ∈ c.introduces terminalsBefore ↔
      c = .nonterminal name ∨ ∃ r, c = .rule r ∧ r.head = name ∧ name ∉ terminalsBefore := by
  cases c with
  | terminal | terminals => simp [introduces]
  | nonterminal other => simp [introduces, eq_comm]
  | rule r =>
    by_cases h : r.head ∈ terminalsBefore
    · simp only [introduces, h, if_true, List.not_mem_nil, reduceCtorEq, false_or, Call.rule.injEq, false_iff]
      rintro ⟨_, rfl, rfl, hnot⟩
      exact hnot h
    · simp only [introduces, h, if_false, List.mem_singleton, reduceCtorEq, false_or, Call.rule.injEq]
      constructor
      · rintro rfl
        exact ⟨r, rfl, rfl, h⟩
      · rintro ⟨_, rfl, rfl, -⟩
        rfl

end Call

/-- The draft with what a call adds. -/
def call (d : Draft) : Call → Draft
  | .terminal name => d.terminal name
  | .terminals names => names.foldl terminal d
  | .nonterminal name => d.nonterminal name
  | .rule r => d.rule r

/-- What calls make of the empty draft, one after the other. -/
def ofCalls (calls : List Call) : Draft :=
  calls.foldl call empty

def terminalsIn (calls : List Call) : List String :=
  calls.flatMap Call.terminalNames

def rulesIn (calls : List Call) : List Rule :=
  calls.flatMap Call.rules

/-- The names that calls behind these terminals make nonterminals, in order and as often as they are. -/
def introducedFrom (terminalsBefore : List String) : List Call → List String
  | [] => []
  | c :: calls => c.introduces terminalsBefore ++ introducedFrom (terminalsBefore ++ c.terminalNames) calls

def introducedIn (calls : List Call) : List String :=
  introducedFrom [] calls

/-- A call declares the nonterminal, or it gives a rule with this head and no call before it declares the terminal. -/
def Introduces (calls : List Call) (name : String) : Prop :=
  ∃ before c behind, calls = before ++ c :: behind ∧
    (c = .nonterminal name ∨ ∃ r, c = .rule r ∧ r.head = name ∧ name ∉ terminalsIn before)

variable {calls : List Call} {d : Draft} {g : Grammar} {name : String}

theorem introducedFrom_append (terminalsBefore : List String) (calls calls' : List Call) :
    introducedFrom terminalsBefore (calls ++ calls') =
      introducedFrom terminalsBefore calls ++ introducedFrom (terminalsBefore ++ terminalsIn calls) calls' := by
  induction calls generalizing terminalsBefore with
  | nil => simp [introducedFrom, terminalsIn]
  | cons c calls ih => simp [introducedFrom, terminalsIn, ih]

theorem introducedIn_concat (calls : List Call) (c : Call) :
    introducedIn (calls ++ [c]) = introducedIn calls ++ c.introduces (terminalsIn calls) := by
  simp [introducedIn, introducedFrom_append, introducedFrom]

theorem mem_introducedIn : name ∈ introducedIn calls ↔ Introduces calls name := by
  induction calls using List.reverseRecOn with
  | nil => simp [introducedIn, introducedFrom, Introduces]
  | append_singleton calls c ih =>
    rw [introducedIn_concat, List.mem_append, ih, Call.mem_introduces]
    constructor
    · rintro (⟨before, c', behind, rfl, h⟩ | h)
      · exact ⟨before, c', behind ++ [c], by simp, h⟩
      · exact ⟨calls, c, [], rfl, h⟩
    · rintro ⟨before, c', behind, hcalls, h⟩
      rcases List.eq_nil_or_concat behind with rfl | ⟨behind, c'', rfl⟩
      · obtain ⟨rfl, hc⟩ := List.append_inj' hcalls rfl
        obtain rfl := List.singleton_inj.mp hc
        exact .inr h
      · rw [List.concat_eq_append, ← List.cons_append, ← List.append_assoc] at hcalls
        obtain ⟨rfl, -⟩ := List.append_inj' hcalls rfl
        exact .inl ⟨before, c', behind, rfl, h⟩

/-- The head of the second rule is a terminal by then. -/
example : introducedIn [.rule ⟨"S", ["a"]⟩, .terminal "a", .rule ⟨"a", []⟩, .nonterminal "S"] = ["S", "S"] := by decide

theorem terminalsIn_concat (calls : List Call) (c : Call) :
    terminalsIn (calls ++ [c]) = terminalsIn calls ++ c.terminalNames := by
  simp [terminalsIn]

theorem rulesIn_concat (calls : List Call) (c : Call) : rulesIn (calls ++ [c]) = rulesIn calls ++ c.rules := by
  simp [rulesIn]

/-- What the calls leave: all terminals and rules, and each nonterminal where it is introduced first. -/
theorem ofCalls_eq (calls : List Call) :
    ofCalls calls = ⟨terminalsIn calls, (introducedIn calls).eraseDups, rulesIn calls⟩ := by
  induction calls using List.reverseRecOn with
  | nil => rfl
  | append_singleton calls c ih =>
    rw [ofCalls, List.foldl_concat, ← ofCalls, ih, terminalsIn_concat, rulesIn_concat, introducedIn_concat]
    cases c with
    | terminal name => simp [call, terminal, Call.terminalNames, Call.rules, Call.introduces]
    | terminals names => simp [call, foldl_terminal, Call.terminalNames, Call.rules, Call.introduces]
    | nonterminal name =>
      simp only [call, nonterminal, Call.terminalNames, Call.rules, Call.introduces, List.append_nil, eraseDups_concat,
        List.mem_eraseDups]
      split <;> rfl
    | rule r =>
      simp only [call, rule, nonterminal, Call.terminalNames, Call.rules, Call.introduces, List.append_nil]
      by_cases h : r.head ∈ terminalsIn calls
      · simp only [h, if_true, List.append_nil]
      · simp only [h, if_false, eraseDups_concat, List.mem_eraseDups]
        split <;> rfl

/-- The calls describe a grammar: the names of the terminals with that of the end terminal and of the nonterminals are
told apart, there is a nonterminal, every name in a rule is one of these, no rule has a terminal as its head or the end
terminal in its body, and every nonterminal has a rule. -/
structure Buildable (calls : List Call) : Prop where
  nodup : (endName :: (terminalsIn calls ++ (introducedIn calls).eraseDups)).Nodup
  introduces : ∃ name, Introduces calls name
  named : ∀ r ∈ rulesIn calls, ∀ name ∈ r.head :: r.body,
    name = endName ∨ name ∈ terminalsIn calls ∨ Introduces calls name
  head : ∀ r ∈ rulesIn calls, r.head ≠ endName ∧ r.head ∉ terminalsIn calls
  body : ∀ r ∈ rulesIn calls, endName ∉ r.body
  headed : ∀ name, Introduces calls name → ∃ r ∈ rulesIn calls, r.head = name

/-- The grammar is the one that the calls describe. -/
structure Built (calls : List Call) (g : Grammar) : Prop where
  terminals : g.symbols.terminals = terminalsIn calls
  nonterminals : g.symbols.nonterminals = (introducedIn calls).eraseDups
  /-- in names, the productions are the rules, each where it is given first -/
  productions : g.productions.map g.symbols.rule = (rulesIn calls).eraseDups
  /-- names and ids belong together one to one -/
  lookup : ∀ name x, g.symbols.lookup? name = some x ↔ x < g.symbols.size ∧ g.symbols.name x = name
  start : g.start = g.symbols.terminalCount
  /-- a nonterminal has a row of the ids of its productions -/
  row : ∀ a, g.symbols.isNonterminal a → g.index[g.symbols.nonterminalIndex a]? = some (g.productionsOf a)
  ascending : ∀ a, (g.productionsOf a).Pairwise (· < ·)
  listed : ∀ a q, q ∈ g.productionsOf a ↔ ∃ p, g.productions[q]? = some p ∧ p.lhs = a
  /-- an id is listed once -/
  unique : ∀ q < g.productions.length, ∃! a, g.symbols.isNonterminal a ∧ q ∈ g.productionsOf a

theorem sound_iff : (ofCalls calls).Sound ↔ Buildable calls := by
  have hmem : ∀ name, name ∈ (introducedIn calls).eraseDups ↔ Introduces calls name := fun name =>
    List.mem_eraseDups.trans mem_introducedIn
  rw [ofCalls_eq]
  constructor
  · rintro ⟨hnodup, hne, hhead, hbody, hheaded⟩
    simp only [hmem] at hhead hbody hheaded
    obtain ⟨hend, htold⟩ := List.nodup_cons.mp hnodup
    obtain ⟨-, -, hapart⟩ := List.nodup_append.mp htold
    simp only [List.mem_append, hmem, not_or] at hend hapart
    refine ⟨hnodup, ?introduces, ?named, ?head, ?body, hheaded⟩
    case introduces =>
      obtain ⟨name, hname⟩ := List.exists_mem_of_ne_nil _ hne
      exact ⟨name, (hmem name).mp hname⟩
    case named =>
      intro r hr
      exact List.forall_mem_cons.mpr ⟨.inr (.inr (hhead r hr)), fun name hname => .inr (hbody r hr name hname)⟩
    case head =>
      intro r hr
      refine ⟨fun h => hend.2 (h ▸ hhead r hr), fun h => ?_⟩
      exact hapart _ h _ (hhead r hr) rfl
    case body =>
      intro r hr hmention
      rcases hbody r hr endName hmention with h | h
      · exact hend.1 h
      · exact hend.2 h
  · intro h
    refine ⟨h.nodup, ?nonterminals_ne_nil, ?head_mem, ?body_mem, ?headed⟩
    case nonterminals_ne_nil =>
      obtain ⟨name, hname⟩ := h.introduces
      exact List.ne_nil_of_mem ((hmem name).mpr hname)
    case head_mem =>
      intro r hr
      rcases h.named r hr r.head List.mem_cons_self with hname | hname | hname
      · exact absurd hname (h.head r hr).1
      · exact absurd hname (h.head r hr).2
      · exact (hmem _).mpr hname
    case body_mem =>
      intro r hr name hname
      rcases h.named r hr name (List.mem_cons_of_mem _ hname) with rfl | hname | hname
      · exact absurd hname (h.body r hr)
      · exact .inl hname
      · exact .inr ((hmem _).mpr hname)
    case headed =>
      intro name hname
      exact h.headed name ((hmem name).mp hname)

/-- The draft that the calls make builds a grammar exactly if the calls describe one, and it builds just that: names
and productions are numbered in the order in which the calls bring them up. -/
theorem build_ofCalls (calls : List Call) : ((∃ g, (ofCalls calls).build = .ok g) ↔ Buildable calls) ∧
    ∀ g, (ofCalls calls).build = .ok g ↔ Built calls g := by
  refine ⟨exists_build_iff.trans sound_iff, fun g => ?_⟩
  rw [build_eq_ok, ofCalls_eq, distinct_eq_eraseDups]
  constructor
  · rintro ⟨hterminals, hnonterminals, hstart, hproductions⟩
    exact {
      terminals := hterminals
      nonterminals := hnonterminals
      productions := hproductions
      lookup := fun _ _ => Vocabulary.lookup?_eq_some
      start := hstart
      row := fun _ => Grammar.getElem?_index
      ascending := g.pairwise_productionsOf
      listed := fun _ _ => Grammar.mem_productionsOf
      unique := fun _ => Grammar.existsUnique_productionsOf }
  · intro h
    exact ⟨h.terminals, h.nonterminals, h.start, h.productions⟩

end ShiftReduce.Draft
