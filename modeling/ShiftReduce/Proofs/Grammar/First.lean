import Mathlib.Data.List.Basic
import ShiftReduce.Grammar.First
import ShiftReduce.Proofs.Grammar.Derivation
import ShiftReduce.Proofs.Reach

/-!
# FIRST sets miss nothing

What vanishes in a parse forest is found to be nullable, and the terminal that a forest begins with is in
FIRST of its string (`begins_of_yields`). The rounds that find the nullable nonterminals go up a chain of
lists of nonterminals, so they are at a fixed point when they end (`settle_fixed`).
-/

namespace ShiftReduce

open List (Sublist)

/-- Rounds that go up below `bound` end at a fixed point, if there are as many of them as steps are left. -/
theorem settle_fixed {f : List Nat → List Nat} {bound : List Nat}
    (hmono : ∀ xs ys, Sublist xs ys → Sublist (f xs) (f ys)) (hbound : ∀ xs, Sublist (f xs) bound)
    {rounds : Nat} {xs : List Nat} (hxs : Sublist xs (f xs)) (hrounds : bound.length ≤ xs.length + rounds) :
    f (settle f rounds xs) = settle f rounds xs := by
  induction rounds generalizing xs with
  | zero => exact (hxs.eq_of_length_le (Nat.le_trans (hbound xs).length_le hrounds)).symm
  | succ rounds ih =>
    by_cases h : f xs = xs
    · simp [settle, h]
    · have hlt : xs.length < (f xs).length := by
        refine Nat.lt_of_le_of_ne hxs.length_le fun e => h ?_
        exact (hxs.eq_of_length_le (Nat.le_of_eq e.symm)).symm
      simp only [settle, h, if_false]
      exact ih (hmono _ _ hxs) (by omega)

namespace Grammar

variable {g : Grammar}

theorem mem_nullableRound {found : List Nat} {a : Nat} : a ∈ g.nullableRound found ↔
    g.symbols.isNonterminal a ∧ ∃ p ∈ g.productions, p.lhs = a ∧ ∀ x ∈ p.rhs, x ∈ found := by
  simp [nullableRound]

theorem nullableRound_mono (xs ys : List Nat) (h : Sublist xs ys) :
    Sublist (g.nullableRound xs) (g.nullableRound ys) := by
  refine List.monotone_filter_right _ fun a ha => ?_
  simp only [List.any_eq_true, Bool.and_eq_true, List.all_eq_true] at ha ⊢
  obtain ⟨p, hp, ha, hall⟩ := ha
  refine ⟨p, hp, ha, fun x hx => ?_⟩
  have := hall x hx
  simp only [List.contains_eq_mem, decide_eq_true_eq] at this ⊢
  exact h.subset this

theorem nullableRound_nullable : g.nullableRound g.nullable = g.nullable := by
  have hbound : ∀ xs, Sublist (g.nullableRound xs) g.symbols.nonterminalIds :=
    fun _ => List.filter_sublist
  exact settle_fixed nullableRound_mono hbound (List.nil_sublist _) (by simp [Vocabulary.nonterminalIds])

theorem mem_nullable_of_rhs {p : Production} (hp : p ∈ g.productions) (h : ∀ x ∈ p.rhs, x ∈ g.nullable) :
    p.lhs ∈ g.nullable := by
  rw [← nullableRound_nullable]
  exact mem_nullableRound.mpr ⟨(g.fits p hp).lhs, p, hp, rfl, h⟩

/-- The symbols over an empty forest are found to be nullable. -/
theorem mem_nullable_of_yields {xs : List Nat} (h : g.Yields xs []) : ∀ x ∈ xs, x ∈ g.nullable := by
  generalize hw : ([] : List Nat) = w at h
  induction h with
  | nil => simp
  | terminal => cases hw
  | @expand p xs v w hp _ _ ihv ihw =>
    obtain ⟨rfl, rfl⟩ := List.append_eq_nil_iff.mp hw.symm
    intro x hx
    rcases List.mem_cons.mp hx with rfl | hx
    · exact mem_nullable_of_rhs hp (ihv rfl)
    · exact ihw rfl x hx

theorem mem_bodiesOf {a : Nat} {body : List Nat} :
    body ∈ g.bodiesOf a ↔ ∃ p ∈ g.productions, p.lhs = a ∧ p.rhs = body := by
  simp [bodiesOf, and_assoc]

theorem lt_size_of_mem_rhs {p : Production} (hp : p ∈ g.productions) {x : Nat} (hx : x ∈ p.rhs) :
    x < g.symbols.size :=
  ((g.fits p hp).rhs x hx).2

end Grammar

theorem leading_subset {nullable xs : List Nat} : leading nullable xs ⊆ xs := by
  induction xs with
  | nil => exact List.Subset.refl _
  | cons x xs ih =>
    rw [leading]
    split
    · exact List.cons_subset_cons x ih
    · simp

namespace FirstTable

variable {g : Grammar} {x t : Nat} {xs w : List Nat}

def opening (g : Grammar) (a : Nat) : List Nat :=
  (g.bodiesOf a).flatMap (leading g.nullable)

theorem opening_subset (a : Nat) : opening g a ⊆ List.range g.symbols.size := by
  intro x hx
  obtain ⟨body, hb, hx⟩ := List.mem_flatMap.mp hx
  obtain ⟨p, hp, -, rfl⟩ := Grammar.mem_bodiesOf.mp hb
  exact List.mem_range.mpr (Grammar.lt_size_of_mem_rhs hp (leading_subset hx))

theorem first_eq (hx : x < g.symbols.size) : (FirstTable.of g).first x =
    g.symbols.terminalIds.filter ((reach (opening g) g.symbols.size [x]).contains ·) := by
  simp only [first, FirstTable.of, List.getElem?_map, List.getElem?_range hx]
  rfl

theorem mem_first (hx : x < g.symbols.size) :
    t ∈ (FirstTable.of g).first x ↔ g.symbols.isTerminal t ∧ Leads (opening g) x t := by
  have hseed : [x] ⊆ List.range g.symbols.size := by simp [hx]
  have hreach : t ∈ reach (opening g) g.symbols.size [x] ↔ _ :=
    mem_reach (Nat.le_of_eq List.length_range) hseed opening_subset
  simp only [List.mem_singleton, exists_eq_left] at hreach
  rw [← hreach, first_eq hx]
  simp

theorem begins_iff : (FirstTable.of g).begins t xs ↔
    ∃ x ∈ leading g.nullable xs, t ∈ (FirstTable.of g).first x := by
  simp [begins, FirstTable.of]

theorem begins_cons {f : FirstTable} :
    f.begins t (x :: xs) ↔ t ∈ f.first x ∨ f.isNullable x ∧ f.begins t xs := by
  rw [begins, leading, isNullable]
  cases hx : f.nullable.contains x with
  | true => simp [begins]
  | false => simp

theorem begins_singleton {f : FirstTable} : f.begins t [x] ↔ t ∈ f.first x := by
  rw [begins_cons]
  simp [begins, leading]

theorem begins_append {f : FirstTable} {ys : List Nat} :
    f.begins t (xs ++ ys) ↔ f.begins t xs ∨ f.vanishes xs ∧ f.begins t ys := by
  induction xs with
  | nil => simp [begins, leading, vanishes]
  | cons x xs ih =>
    have hvanishes : f.vanishes (x :: xs) ↔ f.isNullable x ∧ f.vanishes xs := by
      rw [vanishes, List.all_cons, Bool.and_eq_true]
      rfl
    rw [List.cons_append, begins_cons, begins_cons, ih, hvanishes]
    tauto

theorem mem_firstOf {f : FirstTable} : t ∈ g.firstOf f xs ↔ g.symbols.isTerminal t ∧ f.begins t xs := by
  simp [Grammar.firstOf]

theorem vanishes_of_yields (h : g.Yields xs []) : (FirstTable.of g).vanishes xs := by
  have := Grammar.mem_nullable_of_yields h
  simpa [vanishes, isNullable, FirstTable.of] using this

section

variable {p : Production} (hp : p ∈ g.productions)

include hp

theorem isNullable_of_vanishes (h : (FirstTable.of g).vanishes p.rhs) : (FirstTable.of g).isNullable p.lhs := by
  have hall : ∀ x ∈ p.rhs, x ∈ g.nullable := by simpa [vanishes, isNullable, FirstTable.of] using h
  exact List.contains_iff_mem.mpr (Grammar.mem_nullable_of_rhs hp hall)

/-- What a right-hand side begins with its head begins with. -/
theorem mem_first_of_begins (h : (FirstTable.of g).begins t p.rhs) : t ∈ (FirstTable.of g).first p.lhs := by
  obtain ⟨x, hx, ht⟩ := begins_iff.mp h
  have hx' : x ∈ opening g p.lhs :=
    List.mem_flatMap.mpr ⟨p.rhs, Grammar.mem_bodiesOf.mpr ⟨p, hp, rfl, rfl⟩, hx⟩
  obtain ⟨hterm, hlead⟩ := (mem_first (List.mem_range.mp (opening_subset _ hx'))).mp ht
  have hlhs := g.symbols.lt_size_of_isNonterminal (g.fits p hp).lhs
  exact (mem_first hlhs).mpr ⟨hterm, (Leads.tail .refl hx').trans hlead⟩

/-- A string begins with no less when a right-hand side in it is taken back to its head. -/
theorem begins_contract {ys : List Nat} (h : (FirstTable.of g).begins t (xs ++ p.rhs ++ ys)) :
    (FirstTable.of g).begins t (xs ++ p.lhs :: ys) := by
  rw [List.append_assoc] at h
  rcases begins_append.mp h with h | ⟨hxs, h⟩
  · exact begins_append.mpr (.inl h)
  refine begins_append.mpr (.inr ⟨hxs, begins_cons.mpr ?_⟩)
  rcases begins_append.mp h with h | ⟨hv, h⟩
  · exact .inl (mem_first_of_begins hp h)
  · exact .inr ⟨isNullable_of_vanishes hp hv, h⟩

end

theorem mem_first_terminal (hx : g.symbols.isTerminal x) : x ∈ (FirstTable.of g).first x :=
  (mem_first (g.symbols.lt_size_of_isTerminal hx)).mpr ⟨hx, .refl⟩

/-- A terminal has no right-hand sides, so nothing else begins it. -/
theorem eq_of_mem_first_terminal (hx : g.symbols.isTerminal x) (ht : t ∈ (FirstTable.of g).first x) : t = x := by
  obtain ⟨-, hlead⟩ := (mem_first (g.symbols.lt_size_of_isTerminal hx)).mp ht
  rcases hlead.cases_head with rfl | ⟨y, hy, -⟩
  · rfl
  · obtain ⟨body, hbody, -⟩ := List.mem_flatMap.mp hy
    obtain ⟨p, hp, rfl, -⟩ := Grammar.mem_bodiesOf.mp hbody
    exact absurd hx (g.symbols.not_isTerminal_of_isNonterminal (g.fits p hp).lhs)

/-- The terminal that a forest begins with can begin its string. -/
theorem begins_of_yields (h : g.Yields xs (t :: w)) : (FirstTable.of g).begins t xs := by
  generalize hv : t :: w = v at h
  induction h generalizing w with
  | nil => cases hv
  | @terminal x xs w' hx h _ =>
    obtain ⟨rfl, rfl⟩ := List.cons.inj hv
    exact begins_cons.mpr (.inl (mem_first_terminal hx))
  | @expand p xs v w' hp hv' hw' ihv ihw =>
    rcases v with - | ⟨s, v⟩
    · -- the nonterminal vanishes, so the string goes on behind it
      have hnull : p.lhs ∈ g.nullable :=
        Grammar.mem_nullable_of_yields (.expand hp hv' .nil) _ List.mem_cons_self
      exact begins_cons.mpr (.inr ⟨List.contains_iff_mem.mpr hnull, ihw hv⟩)
    · obtain ⟨rfl, -⟩ := List.cons.inj hv
      exact begins_cons.mpr (.inl (mem_first_of_begins hp (ihv rfl)))

end FirstTable

end ShiftReduce
