import ShiftReduce.Proofs.Grammar.FirstExact
import ShiftReduce.Proofs.Grammar.Follow

/-!
# FOLLOW sets have nothing else

Where FOLLOW takes over what follows another nonterminal, that one derives a string with the first at its end
(`Grammar.derives_last_of_leads`); so a terminal in FOLLOW stands right behind in what some nonterminal derives
(`FollowTable.mem_follow_iff`), and the end terminal is there only if the start derives the nonterminal at its end
(`FollowTable.endId_mem_follow_iff`).
-/

namespace ShiftReduce

variable {g : Grammar} {a b t : Nat}

namespace Grammar

/-- The followers of `b` are taken over for `a` where `b` derives a string with `a` at its end. -/
theorem derives_last_of_leads (h : Leads (g.trailedBy (FirstTable.of g)) a b) : ∃ u, g.Derives [b] (u ++ [a]) := by
  induction h with
  | refl => exact ⟨[], .refl _⟩
  | @tail b c _ hc ih =>
    obtain ⟨u, hu⟩ := ih
    obtain ⟨rest, hplace, hvanish⟩ := mem_trailedBy.mp hc
    obtain ⟨p, hp, rfl, before, hrhs⟩ := mem_placesOf.mp hplace
    refine ⟨before ++ u, ?_⟩
    have hrest : g.Derives (before ++ b :: rest) (before ++ [b]) :=
      ((FirstTable.vanishes_iff.mp hvanish).append_left [b]).append_left before
    have hlast := (Derives.of_production hp).trans (hrhs ▸ hrest)
    rw [List.append_assoc]
    exact hlast.trans (hu.append_left before)

theorem derives_next_of_begins {rest : List Nat} (hplace : (b, rest) ∈ g.placesOf a)
    (hb : (FirstTable.of g).begins t rest) : g.symbols.isNonterminal b ∧ ∃ u v, g.Derives [b] (u ++ a :: t :: v) := by
  obtain ⟨p, hp, rfl, before, hrhs⟩ := mem_placesOf.mp hplace
  obtain ⟨-, v, hv⟩ := FirstTable.begins_iff_derives.mp hb
  have hnext : g.Derives (before ++ a :: rest) (before ++ a :: t :: v) := (hv.append_left [a]).append_left before
  exact ⟨(g.fits p hp).lhs, before, v, (Derives.of_production hp).trans (hrhs ▸ hnext)⟩

end Grammar

namespace FollowTable

theorem derives_of_mem_follow (ha : g.symbols.isNonterminal a)
    (ht : t ∈ (FollowTable.of g (FirstTable.of g)).follow a) :
    (t = endId ∧ ∃ u, g.Derives [g.start] (u ++ [a])) ∨
      ∃ b, g.symbols.isNonterminal b ∧ ∃ u v, g.Derives [b] (u ++ a :: t :: v) := by
  obtain ⟨b, hlead, ht⟩ := (mem_follow ha).mp ht
  obtain ⟨u, hu⟩ := Grammar.derives_last_of_leads hlead
  rcases (Grammar.mem_behind.mp ht).2 with ⟨rfl, rfl⟩ | ⟨⟨head, rest⟩, hplace, hb⟩
  · exact .inl ⟨rfl, u, hu⟩
  · obtain ⟨hhead, u', v, hv⟩ := Grammar.derives_next_of_begins hplace hb
    refine .inr ⟨head, hhead, u' ++ u, v, hv.trans ?_⟩
    simpa using hu.within u' (t :: v)

/-- The end terminal follows what can stand last in what the start derives. -/
theorem endId_mem_follow_iff (ha : g.symbols.isNonterminal a) :
    endId ∈ (FollowTable.of g (FirstTable.of g)).follow a ↔ ∃ u, g.Derives [g.start] (u ++ [a]) := by
  constructor
  · intro h
    rcases derives_of_mem_follow ha h with ⟨-, hlast⟩ | ⟨b, hb, u, v, hnext⟩
    · exact hlast
    · exact absurd rfl (Grammar.ne_endId_of_derives hb hnext endId (by simp))
  · rintro ⟨u, hu⟩
    have hend := hu.append_right [endId]
    rw [List.append_assoc, List.singleton_append, List.singleton_append] at hend
    exact mem_follow_of_next hend ha g.symbols.isTerminal_endId

/-- Another terminal follows what it stands right behind in what some nonterminal derives. -/
theorem mem_follow_iff (ha : g.symbols.isNonterminal a) (ht : g.symbols.isTerminal t) (hend : t ≠ endId) :
    t ∈ (FollowTable.of g (FirstTable.of g)).follow a ↔
      ∃ b, g.symbols.isNonterminal b ∧ ∃ u v, g.Derives [b] (u ++ a :: t :: v) := by
  constructor
  · intro h
    exact (derives_of_mem_follow ha h).resolve_left fun hlast => hend hlast.1
  · rintro ⟨b, -, u, v, h⟩
    exact ((Grammar.Followed.singleton b).derives h).mem_follow ha ht

end FollowTable

end ShiftReduce
