import ShiftReduce.Grammar.Follow
import ShiftReduce.Proofs.Grammar.First

/-!
# FOLLOW sets miss nothing

FOLLOW of a nonterminal has what a forest behind it begins with, and where that forest is empty it has all
of FOLLOW of the head (`headD_mem_follow`). So along a parse tree the terminal behind a nonterminal is
always in its FOLLOW set, the end terminal behind the start included. With no parse tree at hand, it is kept by
derivations that what can begin behind a nonterminal follows it (`Grammar.Followed.derives`).
-/

namespace ShiftReduce

variable {g : Grammar} {f : FirstTable} {a t : Nat}

theorem mem_withRests {xs rest : List Nat} {x : Nat} :
    (x, rest) ∈ withRests xs ↔ ∃ before, xs = before ++ x :: rest := by
  induction xs with
  | nil => simp [withRests]
  | cons y ys ih =>
    rw [withRests, List.mem_cons, ih]
    constructor
    · rintro (h | ⟨before, rfl⟩)
      · obtain ⟨rfl, rfl⟩ := Prod.mk.inj h
        exact ⟨[], rfl⟩
      · exact ⟨y :: before, rfl⟩
    · rintro ⟨before, h⟩
      rcases List.cons_eq_append_iff.mp h with ⟨rfl, h⟩ | ⟨before, rfl, rfl⟩
      · obtain ⟨rfl, rfl⟩ := List.cons.inj h
        exact .inl rfl
      · exact .inr ⟨before, rfl⟩

theorem Vocabulary.getElem?_nonterminalIds (v : Vocabulary) (ha : v.isNonterminal a) :
    v.nonterminalIds[v.nonterminalIndex a]? = some a := by
  obtain ⟨hle, hlt⟩ := v.isNonterminal_iff.mp ha
  rw [size] at hlt
  rw [nonterminalIds, nonterminalIndex, List.getElem?_range' (by omega)]
  exact congrArg some (by omega)

namespace Grammar

theorem mem_placesOf {head : Nat} {rest : List Nat} : (head, rest) ∈ g.placesOf a ↔
    ∃ p ∈ g.productions, p.lhs = head ∧ ∃ before, p.rhs = before ++ a :: rest := by
  simp only [placesOf, List.mem_flatMap, List.mem_filterMap]
  constructor
  · rintro ⟨p, hp, ⟨x, xs⟩, hx, h⟩
    by_cases hxa : x = a
    · simp only [hxa, beq_self_eq_true, if_true, Option.some.injEq, Prod.mk.injEq] at h
      obtain ⟨rfl, rfl⟩ := h
      exact ⟨p, hp, rfl, hxa ▸ mem_withRests.mp hx⟩
    · simp [hxa] at h
  · rintro ⟨p, hp, rfl, hrest⟩
    exact ⟨p, hp, (a, rest), mem_withRests.mpr hrest, by simp⟩

theorem mem_behind : t ∈ g.behind f a ↔
    g.symbols.isTerminal t ∧ (t = endId ∧ a = g.start ∨ ∃ place ∈ g.placesOf a, f.begins t place.2) := by
  simp [behind]

theorem mem_trailedBy {b : Nat} :
    b ∈ g.trailedBy f a ↔ ∃ rest, (b, rest) ∈ g.placesOf a ∧ f.vanishes rest := by
  simp [trailedBy]

theorem trailedBy_subset (a : Nat) : g.trailedBy f a ⊆ g.symbols.nonterminalIds := by
  intro b hb
  obtain ⟨rest, hb, -⟩ := mem_trailedBy.mp hb
  obtain ⟨p, hp, rfl, -⟩ := mem_placesOf.mp hb
  exact g.symbols.mem_nonterminalIds.mpr (g.fits p hp).lhs

end Grammar

namespace FollowTable

open Grammar

theorem follow_eq (ha : g.symbols.isNonterminal a) : (FollowTable.of g f).follow a =
    g.symbols.terminalIds.filter fun t => (reach (g.trailedBy f) g.symbols.size [a]).any fun b =>
      ((g.symbols.nonterminalIds.map fun a => g.behind f a)[g.symbols.nonterminalIndex b]?.getD []).contains t := by
  have hget := g.symbols.getElem?_nonterminalIds ha
  rw [Vocabulary.nonterminalIndex] at hget
  simp only [follow, FollowTable.of, List.getElem?_map, hget]
  rfl

theorem mem_follow (ha : g.symbols.isNonterminal a) : t ∈ (FollowTable.of g f).follow a ↔
    ∃ b, Leads (g.trailedBy f) a b ∧ t ∈ g.behind f b := by
  have hseed : [a] ⊆ g.symbols.nonterminalIds := by simp [ha]
  have hreach : ∀ b, b ∈ reach (g.trailedBy f) g.symbols.size [a] ↔ Leads (g.trailedBy f) a b := fun b => by
    rw [mem_reach g.symbols.length_nonterminalIds_le hseed trailedBy_subset]
    simp
  -- only nonterminals are reached, and each of them has its entry in the table
  have hbehind : ∀ b, Leads (g.trailedBy f) a b →
      (g.symbols.nonterminalIds.map fun a => g.behind f a)[g.symbols.nonterminalIndex b]?
        = some (g.behind f b) := fun b hb => by
    have hb := hb.mem (fun c _ => trailedBy_subset c) (hseed (List.mem_singleton_self a))
    rw [List.getElem?_map, g.symbols.getElem?_nonterminalIds (g.symbols.mem_nonterminalIds.mp hb)]
    rfl
  simp only [follow_eq ha, List.mem_filter, List.any_eq_true, hreach]
  constructor
  · rintro ⟨-, b, hb, ht⟩
    exact ⟨b, hb, by simpa [hbehind b hb] using ht⟩
  · rintro ⟨b, hb, ht⟩
    refine ⟨g.symbols.mem_terminalIds.mpr (mem_behind.mp ht).1, b, hb, ?_⟩
    simpa [hbehind b hb] using ht

theorem endId_mem_follow_start : endId ∈ (FollowTable.of g f).follow g.start :=
  (mem_follow g.start_nonterminal).mpr
    ⟨g.start, .refl, mem_behind.mpr ⟨g.symbols.isTerminal_endId, .inl ⟨rfl, rfl⟩⟩⟩

theorem isTerminal_of_mem_follow (ha : g.symbols.isNonterminal a) (ht : t ∈ (FollowTable.of g f).follow a) :
    g.symbols.isTerminal t := by
  obtain ⟨b, -, ht⟩ := (mem_follow ha).mp ht
  exact (mem_behind.mp ht).1

section

variable {p : Production} {before rest : List Nat}

theorem mem_follow_of_begins (hp : p ∈ g.productions) (hrhs : p.rhs = before ++ a :: rest)
    (ha : g.symbols.isNonterminal a) (ht : g.symbols.isTerminal t) (hb : f.begins t rest) :
    t ∈ (FollowTable.of g f).follow a :=
  (mem_follow ha).mpr ⟨a, .refl, mem_behind.mpr
    ⟨ht, .inr ⟨(p.lhs, rest), mem_placesOf.mpr ⟨p, hp, rfl, before, hrhs⟩, hb⟩⟩⟩

theorem mem_follow_of_vanishes (hp : p ∈ g.productions) (hrhs : p.rhs = before ++ a :: rest)
    (ha : g.symbols.isNonterminal a) (hv : f.vanishes rest) (ht : t ∈ (FollowTable.of g f).follow p.lhs) :
    t ∈ (FollowTable.of g f).follow a := by
  obtain ⟨b, hb, ht⟩ := (mem_follow (g.fits p hp).lhs).mp ht
  have hstep : p.lhs ∈ g.trailedBy f a := mem_trailedBy.mpr ⟨rest, mem_placesOf.mpr ⟨p, hp, rfl, before, hrhs⟩, hv⟩
  exact (mem_follow ha).mpr ⟨b, (Leads.tail .refl hstep).trans hb, ht⟩

/-- What comes behind a nonterminal in a parse forest, with `w` behind the forest, follows it. -/
theorem headD_mem_follow {v w : List Nat} (hp : p ∈ g.productions) (hrhs : p.rhs = before ++ a :: rest)
    (ha : g.symbols.isNonterminal a) (hv : g.Yields rest v)
    (hw : w.headD endId ∈ (FollowTable.of g (FirstTable.of g)).follow p.lhs) :
    (v ++ w).headD endId ∈ (FollowTable.of g (FirstTable.of g)).follow a := by
  rcases v with - | ⟨t, v⟩
  · exact mem_follow_of_vanishes hp hrhs ha (FirstTable.vanishes_of_yields hv) hw
  · have ht := hv.terminals t List.mem_cons_self
    exact mem_follow_of_begins hp hrhs ha ht (FirstTable.begins_of_yields hv)

end

end FollowTable

/-- What can begin behind a nonterminal of the string is in the FOLLOW set of the nonterminal. -/
def Grammar.Followed (g : Grammar) (u : List Nat) : Prop :=
  ∀ before a rest t, u = before ++ a :: rest → g.symbols.isNonterminal a → g.symbols.isTerminal t →
    (FirstTable.of g).begins t rest → t ∈ (FollowTable.of g (FirstTable.of g)).follow a

namespace Grammar.Followed

open FollowTable

variable {u v : List Nat}

/-- Nothing stands behind a symbol alone. -/
theorem singleton (x : Nat) : g.Followed [x] := by
  intro before a rest t hu _ _ hb
  rcases List.cons_eq_append_iff.mp hu with ⟨-, hrest⟩ | ⟨_, -, hnil⟩
  · rw [(List.cons.inj hrest).2] at hb
    exact absurd hb Bool.false_ne_true
  · simp at hnil

theorem start : g.Followed [g.start, endId] := by
  intro before a rest t hu ha _ hb
  rcases List.cons_eq_append_iff.mp hu with ⟨rfl, hrest⟩ | ⟨before, rfl, hrest⟩
  · obtain ⟨rfl, rfl⟩ := List.cons.inj hrest
    rw [FirstTable.eq_of_mem_first_terminal g.symbols.isTerminal_endId (FirstTable.begins_singleton.mp hb)]
    exact endId_mem_follow_start
  · have hmem : a ∈ [endId] := by
      rw [hrest]
      exact List.mem_append_right before List.mem_cons_self
    rw [List.mem_singleton.mp hmem] at ha
    exact absurd g.symbols.isTerminal_endId (g.symbols.not_isTerminal_of_isNonterminal ha)

theorem produces (hu : g.Followed u) (h : g.Produces u v) : g.Followed v := by
  intro before a rest t hv ha ht hb
  obtain ⟨p, hp, l, r, rfl, rfl⟩ := h
  -- the nonterminal is to the left of the right-hand side, in it, or to its right
  rcases append_eq_append_cons hv with ⟨m, hm, rfl⟩ | ⟨m, rfl, rfl⟩
  · rcases append_eq_append_cons hm with ⟨m, rfl, rfl⟩ | ⟨as, rfl, hrhs⟩
    · exact hu before a (m ++ p.lhs :: r) t (by simp) ha ht (FirstTable.begins_contract hp hb)
    · rcases FirstTable.begins_append.mp hb with hb | ⟨hvanish, hb⟩
      · exact mem_follow_of_begins hp hrhs ha ht hb
      · exact mem_follow_of_vanishes hp hrhs ha hvanish (hu l p.lhs r t rfl (g.fits p hp).lhs ht hb)
  · exact hu (l ++ p.lhs :: m) a rest t (by simp) ha ht hb

theorem derives (hu : g.Followed u) (h : g.Derives u v) : g.Followed v := by
  induction h with
  | refl => exact hu
  | tail _ hstep ih => exact ih.produces hstep

theorem mem_follow {before rest : List Nat} (hu : g.Followed (before ++ a :: t :: rest))
    (ha : g.symbols.isNonterminal a) (ht : g.symbols.isTerminal t) :
    t ∈ (FollowTable.of g (FirstTable.of g)).follow a :=
  hu before a (t :: rest) t rfl ha ht (FirstTable.begins_cons.mpr (.inl (FirstTable.mem_first_terminal ht)))

end Grammar.Followed

theorem FollowTable.mem_follow_of_next {before rest : List Nat}
    (h : g.Derives [g.start, endId] (before ++ a :: t :: rest)) (ha : g.symbols.isNonterminal a)
    (ht : g.symbols.isTerminal t) : t ∈ (FollowTable.of g (FirstTable.of g)).follow a :=
  (Grammar.Followed.start.derives h).mem_follow ha ht

end ShiftReduce
