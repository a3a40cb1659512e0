import Mathlib.Logic.Relation
import ShiftReduce.Grammar.Basic

/-!
# Derivations

What a grammar generates, said without items and states. `Derives` rewrites any symbol at any time.
`Rightmost` names the productions of a derivation that always rewrites the last nonterminal. `Yields` goes
through a string from the left and expands a nonterminal down to its terminals before it goes on; it follows
the parse trees and is what inductions on a sentence are over (`yields_of_derives`).
-/

namespace ShiftReduce

/-- A member of two strings together is in the left one or in the right one. -/
theorem append_eq_append_cons {xs ys before rest : List Nat} {a : Nat} (h : xs ++ ys = before ++ a :: rest) :
    (∃ m, xs = before ++ a :: m ∧ rest = m ++ ys) ∨ ∃ m, before = xs ++ m ∧ ys = m ++ a :: rest := by
  rcases List.append_eq_append_iff.mp h with h | ⟨m, rfl, hm⟩
  · exact .inr h
  · rcases List.cons_eq_append_iff.mp hm with ⟨rfl, rfl⟩ | ⟨m, rfl, rfl⟩
    · exact .inr ⟨[], by simp⟩
    · exact .inl ⟨m, rfl, rfl⟩

namespace Grammar

variable (g : Grammar)

/-- A nonterminal of `u` is replaced by one of its right-hand sides. -/
def Produces (u v : List Nat) : Prop :=
  ∃ p ∈ g.productions, ∃ a b, u = a ++ p.lhs :: b ∧ v = a ++ p.rhs ++ b

def Derives : List Nat → List Nat → Prop :=
  Relation.ReflTransGen g.Produces

/-- All symbols of the string are terminals. -/
def Terminal (w : List Nat) : Prop :=
  ∀ x ∈ w, g.symbols.isTerminal x

/-- The productions `ps`, one after the other, rewrite the last nonterminal of `u`, and so on until `v`. -/
inductive Rightmost : List Nat → List Nat → List Nat → Prop
  | refl (u : List Nat) : Rightmost [] u u
  | expand {p : Nat} {P : Production} {a w ps v : List Nat} (hp : g.productions[p]? = some P)
      (hw : g.Terminal w) (h : Rightmost ps (a ++ P.rhs ++ w) v) : Rightmost (p :: ps) (a ++ P.lhs :: w) v

/-- A string of symbols and the terminals of a parse forest over it. -/
inductive Yields : List Nat → List Nat → Prop
  | nil : Yields [] []
  | terminal {x : Nat} {xs w : List Nat} (hx : g.symbols.isTerminal x) (h : Yields xs w) :
      Yields (x :: xs) (x :: w)
  | expand {p : Production} {xs v w : List Nat} (hp : p ∈ g.productions) (hv : Yields p.rhs v)
      (hw : Yields xs w) : Yields (p.lhs :: xs) (v ++ w)

variable {g} {u v w : List Nat}

namespace Terminal

theorem nil : g.Terminal [] :=
  fun _ hx => absurd hx List.not_mem_nil

theorem append (hu : g.Terminal u) (hv : g.Terminal v) : g.Terminal (u ++ v) := fun x hx => by
  rcases List.mem_append.mp hx with hx | hx
  · exact hu x hx
  · exact hv x hx

theorem singleton {x : Nat} (hx : g.symbols.isTerminal x) : g.Terminal [x] := fun y hy => by
  rwa [List.mem_singleton.mp hy]

end Terminal

namespace Produces

theorem append_right (h : g.Produces u v) (w : List Nat) : g.Produces (u ++ w) (v ++ w) := by
  obtain ⟨p, hp, a, b, rfl, rfl⟩ := h
  exact ⟨p, hp, a, b ++ w, by simp, by simp⟩

theorem append_left (h : g.Produces u v) (w : List Nat) : g.Produces (w ++ u) (w ++ v) := by
  obtain ⟨p, hp, a, b, rfl, rfl⟩ := h
  exact ⟨p, hp, w ++ a, b, by simp, by simp⟩

/-- A nonterminal alone is replaced by one of its right-hand sides. -/
theorem of_production {p : Production} (hp : p ∈ g.productions) : g.Produces [p.lhs] p.rhs :=
  ⟨p, hp, [], [], rfl, by simp⟩

end Produces

namespace Derives

theorem refl (u : List Nat) : g.Derives u u :=
  Relation.ReflTransGen.refl

theorem trans (h : g.Derives u v) (h' : g.Derives v w) : g.Derives u w :=
  Relation.ReflTransGen.trans h h'

theorem tail (h : g.Derives u v) (h' : g.Produces v w) : g.Derives u w :=
  Relation.ReflTransGen.tail h h'

theorem head (h : g.Produces u v) (h' : g.Derives v w) : g.Derives u w :=
  Relation.ReflTransGen.head h h'

theorem append_right (h : g.Derives u v) (w : List Nat) : g.Derives (u ++ w) (v ++ w) := by
  induction h with
  | refl => exact refl _
  | tail _ h ih => exact ih.tail (h.append_right w)

theorem append_left (h : g.Derives u v) (w : List Nat) : g.Derives (w ++ u) (w ++ v) := by
  induction h with
  | refl => exact refl _
  | tail _ h ih => exact ih.tail (h.append_left w)

/-- What a symbol derives it derives in any place. -/
theorem within {x : Nat} (h : g.Derives [x] v) (l r : List Nat) : g.Derives (l ++ x :: r) (l ++ v ++ r) := by
  have hplace := (h.append_left l).append_right r
  rwa [List.append_assoc, List.singleton_append] at hplace

theorem of_production {p : Production} (hp : p ∈ g.productions) : g.Derives [p.lhs] p.rhs :=
  head (.of_production hp) (refl _)

/-- What holds of the symbols of a string and passes from heads to their right-hand sides holds of all symbols derived. -/
theorem forall_mem {P : Nat → Prop} (hnext : ∀ p ∈ g.productions, P p.lhs → ∀ x ∈ p.rhs, P x) (h : g.Derives u v)
    (hu : ∀ x ∈ u, P x) : ∀ x ∈ v, P x := by
  induction h with
  | refl => exact hu
  | tail _ hstep ih =>
    obtain ⟨p, hp, l, r, rfl, rfl⟩ := hstep
    simp only [List.forall_mem_append, List.forall_mem_cons] at ih ⊢
    obtain ⟨hl, hlhs, hr⟩ := ih
    exact ⟨⟨hl, hnext p hp hlhs⟩, hr⟩

end Derives

namespace Rightmost

variable {ps : List Nat}

theorem derives (h : g.Rightmost ps u v) : g.Derives u v := by
  induction h with
  | refl u => exact .refl u
  | expand hp _ _ ih => exact .head ⟨_, List.mem_of_getElem? hp, _, _, rfl, rfl⟩ ih

/-- Terminals behind a string have no part in its rightmost derivations. -/
theorem append_right (h : g.Rightmost ps u v) (hw : g.Terminal w) : g.Rightmost ps (u ++ w) (v ++ w) := by
  induction h with
  | refl u => exact .refl _
  | expand hp hw' _ ih =>
    simp only [List.append_assoc, List.cons_append] at ih ⊢
    exact .expand hp (hw'.append hw) (by simpa using ih)

/-- The last production of a derivation has only terminals behind it. -/
theorem exists_last {q : Nat} (h : g.Rightmost (ps ++ [q]) u v) : ∃ p a w, g.productions[q]? = some p ∧
    g.Terminal w ∧ g.Rightmost ps u (a ++ p.lhs :: w) ∧ v = a ++ p.rhs ++ w := by
  generalize hqs : ps ++ [q] = qs at h
  induction h generalizing ps with
  | refl => simp at hqs
  | @expand q' P a w qs v hp hw h ih =>
    rcases List.append_eq_cons_iff.mp hqs with ⟨rfl, hlast⟩ | ⟨ps, rfl, rfl⟩
    · obtain ⟨rfl, rfl⟩ := List.cons.inj hlast
      cases h
      exact ⟨P, a, w, hp, hw, .refl _, rfl⟩
    · obtain ⟨p, a', w', hq, hw', h', rfl⟩ := ih rfl
      exact ⟨p, a', w', hq, hw', .expand hp hw h', rfl⟩

end Rightmost

namespace Yields

theorem terminals (h : g.Yields u w) : g.Terminal w := by
  induction h with
  | nil => exact .nil
  | terminal hx _ ih => exact Terminal.append (.singleton hx) ih
  | expand _ _ _ ihv ihw => exact ihv.append ihw

theorem of_terminal (hw : g.Terminal w) : g.Yields w w := by
  induction w with
  | nil => exact .nil
  | cons x w ih =>
    exact .terminal (hw x List.mem_cons_self) (ih fun y hy => hw y (List.mem_cons_of_mem _ hy))

theorem append {v' : List Nat} (h : g.Yields u v) (h' : g.Yields w v') : g.Yields (u ++ w) (v ++ v') := by
  induction h with
  | nil => exact h'
  | terminal hx _ ih => exact .terminal hx ih
  | expand hp hv _ _ ihw =>
    rw [List.append_assoc]
    exact .expand hp hv ihw

/-- A forest over a string that is cut in two is cut in two, as well. -/
theorem split (h : g.Yields (u ++ v) w) : ∃ w₁ w₂, w = w₁ ++ w₂ ∧ g.Yields u w₁ ∧ g.Yields v w₂ := by
  generalize hs : u ++ v = s at h
  induction h generalizing u with
  | nil =>
    obtain ⟨rfl, rfl⟩ := List.append_eq_nil_iff.mp hs
    exact ⟨[], [], rfl, .nil, .nil⟩
  | @terminal x xs w hx h ih =>
    rcases List.append_eq_cons_iff.mp hs with ⟨rfl, rfl⟩ | ⟨u, rfl, rfl⟩
    · exact ⟨[], _, rfl, .nil, .terminal hx h⟩
    · obtain ⟨w₁, w₂, rfl, h₁, h₂⟩ := ih rfl
      exact ⟨x :: w₁, w₂, rfl, .terminal hx h₁, h₂⟩
  | @expand p xs v' w hp hv hw _ ih =>
    rcases List.append_eq_cons_iff.mp hs with ⟨rfl, rfl⟩ | ⟨u, rfl, rfl⟩
    · exact ⟨[], _, rfl, .nil, .expand hp hv hw⟩
    · obtain ⟨w₁, w₂, rfl, h₁, h₂⟩ := ih rfl
      exact ⟨v' ++ w₁, w₂, by simp, .expand hp hv h₁, h₂⟩

theorem of_produces (h : g.Produces u v) (hv : g.Yields v w) : g.Yields u w := by
  obtain ⟨p, hp, a, b, rfl, rfl⟩ := h
  obtain ⟨w', w₃, rfl, h', h₃⟩ := hv.split
  obtain ⟨w₁, w₂, rfl, h₁, h₂⟩ := h'.split
  rw [List.append_assoc]
  exact h₁.append (.expand hp h₂ h₃)

end Yields

theorem yields_of_derives (h : g.Derives u w) (hw : g.Terminal w) : g.Yields u w := by
  induction h using Relation.ReflTransGen.head_induction_on with
  | refl => exact .of_terminal hw
  | head h _ ih => exact ih.of_produces h

/-- No derivation from a nonterminal makes the end terminal. -/
theorem ne_endId_of_derives {a : Nat} (ha : g.symbols.isNonterminal a) (h : g.Derives [a] u) : ∀ x ∈ u, x ≠ endId := by
  refine h.forall_mem (fun p hp _ x hx => ((g.fits p hp).rhs x hx).1) fun x hx hend => ?_
  rw [← List.mem_singleton.mp hx, hend] at ha
  exact g.symbols.not_isTerminal_of_isNonterminal ha g.symbols.isTerminal_endId

/-- The forest over one nonterminal grows from one of its productions. -/
theorem Yields.production {a : Nat} (h : g.Yields [a] w) (ha : ¬ g.symbols.isTerminal a) :
    ∃ p ∈ g.productions, p.lhs = a ∧ g.Yields p.rhs w := by
  cases h with
  | terminal hx _ => exact absurd hx ha
  | expand hp hv hw =>
    cases hw
    exact ⟨_, hp, rfl, by simpa using hv⟩

/-- As many `a` as `b` behind them: `S` is `a S b` or empty. -/
def nested : Grammar where
  symbols := ⟨["a", "b"], ["S"], by decide⟩
  productions := [⟨3, [1, 3, 2]⟩, ⟨3, []⟩]
  start := 3
  start_nonterminal := by decide
  fits := fun p hp => Production.fits_of_fault? (by revert p; decide)
  headed := by decide

end Grammar

end ShiftReduce
