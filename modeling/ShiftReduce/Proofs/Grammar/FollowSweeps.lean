import Mathlib.Data.Finset.Prod
import ShiftReduce.Proofs.Grammar.FollowExact
import ShiftReduce.Proofs.Grammar.Reachable
import ShiftReduce.Proofs.Sweep

/-!
# FOLLOW found in sweeps over the productions

The FOLLOW sets told as a loop over the places of the nonterminals on right-hand sides, repeated until nothing is added.
It comes to an end with the sets of the table (`FollowTable.exists_sweeps_follow`), and these are what the derivations of
the grammar say (`FollowTable.follow_exact`).
-/

namespace ShiftReduce.FollowTable

/-- The end terminal follows the start. -/
def ofStart (g : Grammar) : Finset (Nat × Nat) :=
  {(g.start, endId)}

/-- At a place of a nonterminal: what the rest behind it begins with follows the nonterminal, and if the rest can vanish,
what follows the head does. Known are pairs of a nonterminal and a terminal that follows it. -/
def atPlace (g : Grammar) (f : FirstTable) (head : Nat) (place : Nat × List Nat) : Inference (Nat × Nat) :=
  fun known => ((g.firstOf f place.2).map fun t => (place.1, t)).toFinset ∪
    if f.vanishes place.2 then takeOver place.1 head known else ∅

/-- The places of nonterminals, production by production and from the left. -/
def followRules (g : Grammar) (f : FirstTable) : List (Inference (Nat × Nat)) :=
  g.productions.flatMap fun p =>
    ((withRests p.rhs).filter (g.symbols.isNonterminal ·.1)).map (atPlace g f p.lhs)

section

variable {g : Grammar} {f : FirstTable} {a b t head : Nat} {rest : List Nat} {facts : Finset (Nat × Nat)}

theorem mem_atPlace : (b, t) ∈ atPlace g f head (a, rest) facts ↔
    b = a ∧ (g.symbols.isTerminal t ∧ f.begins t rest ∨ f.vanishes rest ∧ (head, t) ∈ facts) := by
  have hfirst : (b, t) ∈ ((g.firstOf f rest).map fun t => (a, t)).toFinset ↔
      b = a ∧ g.symbols.isTerminal t ∧ f.begins t rest := by
    simp only [List.mem_toFinset, List.mem_map, FirstTable.mem_firstOf, Prod.mk.injEq]
    constructor
    · rintro ⟨t, hbegins, rfl, rfl⟩
      exact ⟨rfl, hbegins⟩
    · rintro ⟨rfl, hbegins⟩
      exact ⟨t, hbegins, rfl, rfl⟩
  rw [atPlace, Finset.mem_union, hfirst]
  split
  · next hv => rw [mem_takeOver, and_or_left, and_iff_right hv]
  · next hv => simp [hv]

theorem mem_followRules {rule : Inference (Nat × Nat)} : rule ∈ followRules g f ↔
    ∃ a head rest, g.symbols.isNonterminal a ∧ (head, rest) ∈ g.placesOf a ∧ atPlace g f head (a, rest) = rule := by
  simp only [followRules, List.mem_flatMap, List.mem_map, List.mem_filter, Grammar.mem_placesOf]
  constructor
  · rintro ⟨p, hp, ⟨a, rest⟩, ⟨hrest, ha⟩, rfl⟩
    exact ⟨a, p.lhs, rest, ha, ⟨p, hp, rfl, mem_withRests.mp hrest⟩, rfl⟩
  · rintro ⟨a, _, rest, ha, ⟨p, hp, rfl, hrest⟩, rfl⟩
    exact ⟨p, hp, (a, rest), ⟨mem_withRests.mpr hrest, ha⟩, rfl⟩

/-- Facts that the rules keep and that have the end terminal behind the start have all of FOLLOW. -/
theorem mem_of_mem_follow (hstart : ofStart g ⊆ facts) (hclosed : ∀ rule ∈ followRules g f, rule facts ⊆ facts)
    (ha : g.symbols.isNonterminal a) (ht : t ∈ (FollowTable.of g f).follow a) : (a, t) ∈ facts := by
  obtain ⟨b, hlead, hbehind⟩ := (mem_follow ha).mp ht
  clear ht
  induction hlead using Relation.ReflTransGen.head_induction_on with
  | refl =>
    obtain ⟨hterm, ⟨rfl, rfl⟩ | ⟨⟨head, rest⟩, hplace, hb⟩⟩ := Grammar.mem_behind.mp hbehind
    · exact hstart (Finset.mem_singleton_self _)
    · have hrule : atPlace g f head (b, rest) ∈ followRules g f :=
        mem_followRules.mpr ⟨b, head, rest, ha, hplace, rfl⟩
      exact hclosed _ hrule (mem_atPlace.mpr ⟨rfl, .inl ⟨hterm, hb⟩⟩)
  | @head a c hc _ ih =>
    have hnonterminal := g.symbols.mem_nonterminalIds.mp (Grammar.trailedBy_subset a hc)
    obtain ⟨rest, hplace, hv⟩ := Grammar.mem_trailedBy.mp hc
    have hrule : atPlace g f c (a, rest) ∈ followRules g f := mem_followRules.mpr ⟨a, c, rest, ha, hplace, rfl⟩
    exact hclosed _ hrule (mem_atPlace.mpr ⟨rfl, .inr ⟨hv, ih hnonterminal⟩⟩)

theorem exists_sweeps_follow : ∃ found, Sweeps (followRules g f) (ofStart g) found ∧
    ∀ fact, fact ∈ found ↔ g.symbols.isNonterminal fact.1 ∧ fact.2 ∈ (FollowTable.of g f).follow fact.1 := by
  have hbound : ∀ fact : Nat × Nat, g.symbols.isNonterminal fact.1 ∧ fact.2 ∈ (FollowTable.of g f).follow fact.1 →
      fact ∈ Finset.range g.symbols.size ×ˢ Finset.range g.symbols.size := by
    rintro fact ⟨ha, ht⟩
    have hhead := g.symbols.lt_size_of_isNonterminal ha
    have hnext := g.symbols.lt_size_of_isTerminal (isTerminal_of_mem_follow ha ht)
    simp [hhead, hnext]
  refine exists_sweeps hbound (fun fact hfact => ?_) (fun rule hrule facts hfacts ⟨a, t⟩ hfact => ?_)
    fun facts hstart hclosed fact hfact => mem_of_mem_follow hstart hclosed hfact.1 hfact.2
  · rw [Finset.mem_singleton.mp hfact]
    exact ⟨g.start_nonterminal, endId_mem_follow_start⟩
  · obtain ⟨b, head, rest, hb, hplace, rfl⟩ := mem_followRules.mp hrule
    obtain ⟨p, hp, rfl, before, hrhs⟩ := Grammar.mem_placesOf.mp hplace
    obtain ⟨rfl, ⟨ht, hbegins⟩ | ⟨hv, hmem⟩⟩ := mem_atPlace.mp hfact
    · exact ⟨hb, mem_follow_of_begins hp hrhs hb ht hbegins⟩
    · exact ⟨hb, mem_follow_of_vanishes hp hrhs hb hv (hfacts _ hmem).2⟩

end

/-- The table has what follows each nonterminal of a grammar. -/
structure Exact (g : Grammar) (w : FollowTable) : Prop where
  /-- only terminals follow -/
  terminal : ∀ a t, g.symbols.isNonterminal a → t ∈ w.follow a → g.symbols.isTerminal t
  /-- the end terminal follows what stands last in something that the start derives -/
  last : ∀ a, g.symbols.isNonterminal a → (endId ∈ w.follow a ↔ ∃ u, g.Derives [g.start] (u ++ [a]))
  /-- another terminal follows what it stands right behind in something that a nonterminal derives -/
  next : ∀ a t, g.symbols.isNonterminal a → g.symbols.isTerminal t → t ≠ endId →
    (t ∈ w.follow a ↔ ∃ b, g.symbols.isNonterminal b ∧ ∃ u v, g.Derives [b] (u ++ a :: t :: v))
  /-- where all nonterminals are reached, this is what the start derives -/
  sentential : (∀ b, g.symbols.isNonterminal b → g.Reaches b) → ∀ a t, g.symbols.isNonterminal a →
    (t ∈ w.follow a ↔ (g.symbols.isTerminal t ∧ ∃ u v, g.Derives [g.start] (u ++ a :: t :: v)) ∨
      t = endId ∧ ∃ u, g.Derives [g.start] (u ++ [a]))

/-- FOLLOW of a nonterminal is what can stand right behind it. The sweeps that collect the FOLLOW sets come to an end,
with just these. -/
theorem follow_exact (g : Grammar) : (FollowTable.of g (FirstTable.of g)).Exact g ∧
    ∃ found, Sweeps (followRules g (FirstTable.of g)) (ofStart g) found ∧
      ∀ a t, g.symbols.isNonterminal a → ((a, t) ∈ found ↔ t ∈ (FollowTable.of g (FirstTable.of g)).follow a) := by
  refine ⟨⟨fun a t => isTerminal_of_mem_follow, fun a => endId_mem_follow_iff, fun a t => mem_follow_iff,
    fun hreach a t ha => ⟨fun h => ?_, ?_⟩⟩, ?_⟩
  · rcases derives_of_mem_follow ha h with hlast | ⟨b, hb, u, v, hnext⟩
    · exact .inr hlast
    · obtain ⟨before, behind, hb⟩ := hreach b hb
      refine .inl ⟨isTerminal_of_mem_follow ha h, before ++ u, v ++ behind, hb.trans ?_⟩
      simpa using hnext.within before behind
  · rintro (⟨ht, u, v, hnext⟩ | ⟨rfl, hlast⟩)
    · exact ((Grammar.Followed.singleton g.start).derives hnext).mem_follow ha ht
    · exact (endId_mem_follow_iff ha).mpr hlast
  · obtain ⟨found, hfound, hmem⟩ := exists_sweeps_follow (g := g) (f := FirstTable.of g)
    exact ⟨found, hfound, fun a t ha => (hmem (a, t)).trans (and_iff_right ha)⟩

/-- In what the only nonterminal derives, `b` can stand behind it and `a` cannot. -/
theorem follow_exact_nested : (∀ b, Grammar.nested.symbols.isNonterminal b → Grammar.nested.Reaches b) ∧
    (∃ u v, Grammar.nested.Derives [3] (u ++ 3 :: 2 :: v)) ∧
    ¬ ∃ u v, Grammar.nested.Derives [3] (u ++ 3 :: 1 :: v) := by
  have hreach : ∀ b, Grammar.nested.symbols.isNonterminal b → Grammar.nested.Reaches b := by
    intro b hb
    obtain rfl : b = Grammar.nested.start :=
      List.mem_singleton.mp (Grammar.nested.symbols.mem_nonterminalIds.mpr hb)
    exact .start
  have hfollow : (FollowTable.of .nested (FirstTable.of .nested)).follow 3 = [0, 2] := by decide +kernel
  have hexact := (follow_exact .nested).1.sentential hreach 3
  refine ⟨hreach, ?_, fun h => ?_⟩
  · have hnext := (hexact 2 (by decide)).mp (by simp [hfollow])
    exact (hnext.resolve_right fun hend => absurd hend.1 (by decide)).2
  · have hmem := (hexact 1 (by decide)).mpr (.inl ⟨by decide, h⟩)
    simp [hfollow] at hmem

end ShiftReduce.FollowTable
