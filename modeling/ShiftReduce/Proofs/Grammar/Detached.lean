import ShiftReduce.Proofs.Grammar.FirstExact
import ShiftReduce.Proofs.Grammar.Follow
import ShiftReduce.Proofs.Grammar.Reachable

/-!
# FOLLOW of what is reached

FOLLOW of a nonterminal depends on the productions of some symbols only, as long as no production of another symbol
mentions one of these (`Grammar.KeepsOn`). It is taken over all productions, so those of a head that is not reached
matter to a reached nonterminal when they mention it; a grammar without such productions is `Grammar.Detached`. Two
grammars of this kind that have the same productions of reached heads have the same FOLLOW sets for all nonterminals
that are reached (`Grammar.sameFollow_of_detached`).
-/

namespace ShiftReduce.Grammar

variable {g g' : Grammar} {a t x : Nat} {u v xs : List Nat}

/-- The other grammar has all productions of heads that are reached. -/
structure Keeps (g g' : Grammar) : Prop where
  symbols : g'.symbols = g.symbols
  start : g'.start = g.start
  mem : ∀ p ∈ g.productions, g.Reaches p.lhs → p ∈ g'.productions

/-- No nonterminal that is reached stands on a right-hand side of a head that is not. -/
def Detached (g : Grammar) : Prop :=
  ∀ p ∈ g.productions, ∀ a ∈ p.rhs, g.symbols.isNonterminal a → g.Reaches a → g.Reaches p.lhs

/-- FOLLOW is the same for all nonterminals that are reached. -/
def SameFollow (g g' : Grammar) : Prop :=
  ∀ a, g.symbols.isNonterminal a → g.Reaches a →
    (FollowTable.of g' (FirstTable.of g')).follow a = (FollowTable.of g (FirstTable.of g)).follow a

/-- The other grammar has all productions of the symbols in `on`. These symbols are closed: a production of one has
only such symbols on its right-hand side, and a nonterminal among them stands only on right-hand sides of such. -/
structure KeepsOn (on : Nat → Prop) (g g' : Grammar) : Prop where
  symbols : g'.symbols = g.symbols
  start : g'.start = g.start
  mem : ∀ p ∈ g.productions, on p.lhs → p ∈ g'.productions
  rhs : ∀ p ∈ g.productions, on p.lhs → ∀ x ∈ p.rhs, on x
  lhs : ∀ p ∈ g.productions, ∀ a ∈ p.rhs, g.symbols.isNonterminal a → on a → on p.lhs

namespace KeepsOn

variable {on : Nat → Prop}

theorem derives (h : KeepsOn on g g') (hu : ∀ x ∈ u, on x) (hd : g.Derives u v) : g'.Derives u v := by
  induction hd with
  | refl => exact .refl _
  | tail hd hstep ih =>
    obtain ⟨p, hp, l, r, rfl, rfl⟩ := hstep
    have hlhs : on p.lhs := Derives.forall_mem h.rhs hd hu p.lhs (List.mem_append_right _ List.mem_cons_self)
    exact ih.tail ⟨p, h.mem p hp hlhs, l, r, rfl, rfl⟩

theorem vanishes (h : KeepsOn on g g') (hxs : ∀ x ∈ xs, on x) (hv : (FirstTable.of g).vanishes xs) :
    (FirstTable.of g').vanishes xs :=
  FirstTable.vanishes_iff.mpr (h.derives hxs (FirstTable.vanishes_iff.mp hv))

theorem begins (h : KeepsOn on g g') (hxs : ∀ x ∈ xs, on x) (hb : (FirstTable.of g).begins t xs) :
    (FirstTable.of g').begins t xs := by
  obtain ⟨ht, w, hw⟩ := FirstTable.begins_iff_derives.mp hb
  exact FirstTable.begins_iff_derives.mpr ⟨h.symbols ▸ ht, w, h.derives hxs hw⟩

/-- A place of such a nonterminal is in the other grammar as well, and its surroundings are such symbols. -/
theorem mem_placesOf (h : KeepsOn on g g') (hn : g.symbols.isNonterminal a) (ha : on a)
    {place : Nat × List Nat} (hplace : place ∈ g.placesOf a) :
    place ∈ g'.placesOf a ∧ g.symbols.isNonterminal place.1 ∧ on place.1 ∧ ∀ x ∈ place.2, on x := by
  obtain ⟨head, rest⟩ := place
  obtain ⟨p, hp, rfl, before, hrhs⟩ := Grammar.mem_placesOf.mp hplace
  have hmem : a ∈ p.rhs := by
    rw [hrhs]
    exact List.mem_append_right _ List.mem_cons_self
  have hlhs := h.lhs p hp a hmem hn ha
  refine ⟨Grammar.mem_placesOf.mpr ⟨p, h.mem p hp hlhs, rfl, before, hrhs⟩, (g.fits p hp).lhs, hlhs, fun x hx => ?_⟩
  refine h.rhs p hp hlhs x ?_
  rw [hrhs]
  exact List.mem_append_right _ (List.mem_cons_of_mem _ hx)

theorem leads (h : KeepsOn on g g') (hn : g.symbols.isNonterminal a) (ha : on a) {b : Nat}
    (hlead : Leads (g.trailedBy (FirstTable.of g)) a b) :
    Leads (g'.trailedBy (FirstTable.of g')) a b ∧ g.symbols.isNonterminal b ∧ on b := by
  induction hlead with
  | refl => exact ⟨.refl, hn, ha⟩
  | tail _ hc ih =>
    obtain ⟨hlead, hb, hon⟩ := ih
    obtain ⟨rest, hplace, hv⟩ := mem_trailedBy.mp hc
    obtain ⟨hplace', hc, hon', hrest⟩ := h.mem_placesOf hb hon hplace
    exact ⟨hlead.tail (mem_trailedBy.mpr ⟨rest, hplace', h.vanishes hrest hv⟩), hc, hon'⟩

theorem mem_follow (h : KeepsOn on g g') (hn : g.symbols.isNonterminal a) (ha : on a)
    (ht : t ∈ (FollowTable.of g (FirstTable.of g)).follow a) : t ∈ (FollowTable.of g' (FirstTable.of g')).follow a := by
  obtain ⟨b, hlead, ht⟩ := (FollowTable.mem_follow hn).mp ht
  obtain ⟨hlead', hb, hon⟩ := h.leads hn ha hlead
  obtain ⟨hterm, hbehind⟩ := mem_behind.mp ht
  refine (FollowTable.mem_follow (h.symbols ▸ hn)).mpr ⟨b, hlead', mem_behind.mpr ⟨h.symbols ▸ hterm, ?_⟩⟩
  rcases hbehind with ⟨hend, hstart⟩ | ⟨place, hplace, hbegins⟩
  · exact .inl ⟨hend, hstart.trans h.start.symm⟩
  · obtain ⟨hplace', -, -, hrest⟩ := h.mem_placesOf hb hon hplace
    exact .inr ⟨place, hplace', h.begins hrest hbegins⟩

/-- Where each of two grammars keeps what the other says of a nonterminal, they say the same of what follows it. -/
theorem follow_eq {on' : Nat → Prop} (h : KeepsOn on g g') (h' : KeepsOn on' g' g) (hn : g.symbols.isNonterminal a)
    (ha : on a) (ha' : on' a) :
    (FollowTable.of g' (FirstTable.of g')).follow a = (FollowTable.of g (FirstTable.of g)).follow a := by
  have hn' : g'.symbols.isNonterminal a := h.symbols ▸ hn
  have hmem : ∀ t, t ∈ (FollowTable.of g' (FirstTable.of g')).follow a ↔
      t ∈ (FollowTable.of g (FirstTable.of g)).follow a :=
    fun t => ⟨h'.mem_follow hn' ha', h.mem_follow hn ha⟩
  -- both list their terminals in the order of the vocabulary
  simp only [FollowTable.follow_eq hn, FollowTable.follow_eq hn', h.symbols, List.mem_filter] at hmem ⊢
  refine List.filter_congr fun t ht => ?_
  rw [Bool.eq_iff_iff]
  simpa only [ht, true_and] using hmem t

end KeepsOn

namespace Keeps

theorem reaches (h : g.Keeps g') (hx : g.Reaches x) : g'.Reaches x :=
  hx.mono h.start h.mem

theorem keepsOn (h : g.Keeps g') (hg : g.Detached) : KeepsOn g.Reaches g g' where
  symbols := h.symbols
  start := h.start
  mem := h.mem
  rhs _ hp hlhs _ hx := hlhs.of_mem_rhs hp hx
  lhs := hg

end Keeps

theorem sameFollow_of_detached (h : g.Keeps g') (h' : g'.Keeps g) (hg : g.Detached) (hg' : g'.Detached) :
    SameFollow g g' :=
  fun _ hn ha => (h.keepsOn hg).follow_eq (h'.keepsOn hg') hn ha (h.reaches ha)

end ShiftReduce.Grammar
