import ShiftReduce.Proofs.Automaton.Items

/-!
# Paths and valid items

A path from state 0 spells a string, and an item of the state it ends in is valid behind this string: some
derivation from the start leaves everything before the item's production as it is (`Path.valid`). So the
right-hand side of a complete item stands at the end of the string (`Path.handle`), and the string is the
beginning of something that the start derives (`Path.viable`).
-/

namespace ShiftReduce

namespace Grammar

variable (g : Grammar)

/-- From the start, expanding over and over the symbol `a` right behind a part `before` that stays as it
is, one comes to `before a behind`. -/
inductive Spine : List Nat → Nat → List Nat → Prop
  | start : Spine [] g.start []
  | expand {before behind ys zs : List Nat} {x : Nat} {p : Production} (h : Spine before p.lhs behind)
      (hp : p ∈ g.productions) (hrhs : p.rhs = ys ++ x :: zs) : Spine (before ++ ys) x (zs ++ behind)

/-- The item can stand behind `xs`: the symbols before its dot are the end of `xs`, and its production is
open there. -/
def Valid (xs : List Nat) (i : Item) : Prop :=
  ∃ p before behind, g.productions[i.production]? = some p ∧ i.dot ≤ p.rhs.length ∧
    g.Spine before p.lhs behind ∧ xs = before ++ p.rhs.take i.dot

variable {g} {xs : List Nat} {i : Item} {x q : Nat} {p : Production}

theorem Spine.derives {before behind : List Nat} (h : g.Spine before x behind) :
    g.Derives [g.start] (before ++ x :: behind) := by
  induction h with
  | start => exact .refl _
  | @expand before behind ys zs x p _ hp hrhs ih =>
    refine ih.tail ⟨p, hp, before, behind, rfl, ?_⟩
    rw [hrhs]
    simp

namespace Valid

theorem root (hq : g.productions[q]? = some p) (hstart : p.lhs = g.start) : g.Valid [] (.atStart q) :=
  ⟨p, [], [], hq, Nat.zero_le _, hstart ▸ .start, by simp [Item.atStart]⟩

theorem atStart (h : g.Valid xs i) (hq : g.productions[q]? = some p) (hnext : i.next? g = some p.lhs) :
    g.Valid xs (.atStart q) := by
  obtain ⟨p', before, behind, hp', -, hspine, rfl⟩ := h
  obtain ⟨p'', hp'', hrhs⟩ := Item.exists_production hnext
  obtain rfl := Option.some.inj (hp'.symm.trans hp'')
  exact ⟨p, _, _, hq, Nat.zero_le _, hspine.expand (List.mem_of_getElem? hp') hrhs, by simp [Item.atStart]⟩

theorem shifted (h : g.Valid xs i) (hnext : i.next? g = some x) : g.Valid (xs ++ [x]) i.shifted := by
  obtain ⟨p, before, behind, hp, -, hspine, rfl⟩ := h
  rw [Item.next?, rhs_eq hp] at hnext
  obtain ⟨hlt, rfl⟩ := List.getElem?_eq_some_iff.mp hnext
  refine ⟨p, before, behind, hp, hlt, hspine, ?_⟩
  rw [Item.shifted, List.take_succ_eq_append_getElem hlt, List.append_assoc]

/-- The string goes on to something that the start derives. -/
theorem viable (h : g.Valid xs i) : ∃ rest, g.Derives [g.start] (xs ++ rest) := by
  obtain ⟨p, before, behind, hp, -, hspine, rfl⟩ := h
  refine ⟨p.rhs.drop i.dot ++ behind, hspine.derives.tail
    ⟨p, List.mem_of_getElem? hp, before, behind, rfl, ?_⟩⟩
  rw [← List.append_assoc, List.append_assoc before, List.take_append_drop]

theorem handle (h : g.Valid xs ⟨q, p.rhs.length⟩) (hq : g.productions[q]? = some p) :
    ∃ before, xs = before ++ p.rhs := by
  obtain ⟨p', before, -, hp', -, -, rfl⟩ := h
  obtain rfl := Option.some.inj (hq.symm.trans hp')
  exact ⟨before, by rw [List.take_length]⟩

end Valid

end Grammar

namespace Automaton

/-- The states on the way from state `n` along some symbols, `n` first. -/
def walk? (a : Automaton) : Nat → List Nat → Option (List Nat)
  | n, [] => some [n]
  | n, x :: xs => (a.transition? n x).bind fun m => (a.walk? m xs).map (n :: ·)

/-- From state 0 the symbols `xs` lead through the states `ss`, state 0 among them; of both the last is listed
first. -/
inductive Path (a : Automaton) : List Nat → List Nat → Prop
  | nil : Path a [] [0]
  | push {xs ss : List Nat} {x s : Nat} (h : Path a xs ss) (hs : a.transition? (ss.headD 0) x = some s) :
      Path a (x :: xs) (s :: ss)

theorem exists_walk?_cons {a : Automaton} {n : Nat} {xs ns : List Nat} (h : a.walk? n xs = some ns) :
    ∃ ms, ns = n :: ms := by
  cases xs with
  | nil => exact ⟨[], (Option.some.inj h).symm⟩
  | cons x xs =>
    simp only [walk?, Option.bind_eq_some_iff, Option.map_eq_some_iff] at h
    obtain ⟨_, -, ms, -, rfl⟩ := h
    exact ⟨ms, rfl⟩

theorem walk?_concat {a : Automaton} {n k x m : Nat} {xs ns : List Nat}
    (h : a.walk? n xs = some (ns ++ [k])) (hm : a.transition? k x = some m) :
    a.walk? n (xs ++ [x]) = some (ns ++ [k] ++ [m]) := by
  induction xs generalizing n ns with
  | nil =>
    rcases List.append_eq_cons_iff.mp (Option.some.inj h).symm with ⟨rfl, hk⟩ | ⟨_, -, hk⟩
    · obtain ⟨rfl, -⟩ := List.cons.inj hk
      simp [walk?, hm]
    · simp at hk
  | cons y xs ih =>
    simp only [walk?, Option.bind_eq_some_iff, Option.map_eq_some_iff] at h
    obtain ⟨l, hl, ms, hms, h⟩ := h
    rcases List.append_eq_cons_iff.mp h.symm with ⟨rfl, h⟩ | ⟨ns, rfl, rfl⟩
    · obtain ⟨_, rfl⟩ := exists_walk?_cons hms
      simp at h
    · simp [walk?, hl, ih hms]

namespace Path

variable {a : Automaton} {xs ss : List Nat}

theorem length_eq (h : a.Path xs ss) : ss.length = xs.length + 1 := by
  induction h with
  | nil => rfl
  | push _ _ ih => simp [ih]

theorem ne_nil (h : a.Path xs ss) : ss ≠ [] :=
  List.ne_nil_of_length_eq_add_one h.length_eq

theorem drop {k : Nat} (h : a.Path xs ss) (hk : k ≤ xs.length) : a.Path (xs.drop k) (ss.drop k) := by
  induction h generalizing k with
  | nil =>
    obtain rfl := Nat.le_zero.mp hk
    exact .nil
  | push h hs ih =>
    cases k with
    | zero => exact h.push hs
    | succ k => exact ih (Nat.le_of_succ_le_succ hk)

/-- What is left of a path when its last symbols are taken off. -/
theorem rest {ys before : List Nat} (h : a.Path (ys.reverse ++ before) ss) : a.Path before (ss.drop ys.length) := by
  have hdrop := h.drop (k := ys.length) (by simp)
  rwa [List.drop_left' List.length_reverse] at hdrop

theorem walk?_eq (h : a.Path xs ss) : a.walk? 0 xs.reverse = some ss.reverse := by
  induction h with
  | nil => rfl
  | @push xs ss x s h hs ih =>
    rw [List.reverse_cons, List.reverse_cons]
    cases ss with
    | nil => exact absurd rfl h.ne_nil
    | cons t ss =>
      rw [List.reverse_cons] at ih ⊢
      exact walk?_concat ih hs

variable {g : Grammar} {options : Options}

theorem valid (h : (of options g).Path xs ss) : ∀ i ∈ (of options g).itemsAt (ss.headD 0), g.Valid xs.reverse i := by
  induction h with
  | nil =>
    exact itemsAt_zero_induction (fun q p hq hl => .root hq hl) fun i q p hi hq hnext => hi.atStart hq hnext
  | push _ hs ih =>
    refine itemsAt_induction hs (fun i hi hnext => ?_) fun i q p hi hq hnext => hi.atStart hq hnext
    rw [List.reverse_cons]
    exact (ih i hi).shifted hnext

theorem exists_item (h : (of options g).Path xs ss) : ∃ i, i ∈ (of options g).itemsAt (ss.headD 0) := by
  cases h with
  | nil =>
    obtain ⟨p, hp, hl⟩ := g.headed g.start (g.symbols.mem_nonterminalIds.mpr g.start_nonterminal)
    obtain ⟨q, hq⟩ := List.getElem?_of_mem hp
    exact ⟨_, atStart_mem_itemsAt_zero hq hl⟩
  | push _ hs =>
    obtain ⟨i, hi, hnext⟩ := exists_next_of_transition? hs
    obtain ⟨m, hm, hi⟩ := shifted_mem hi hnext
    obtain rfl := Option.some.inj (hs.symm.trans hm)
    exact ⟨_, hi⟩

theorem viable (h : (of options g).Path xs ss) : ∃ rest, g.Derives [g.start] (xs.reverse ++ rest) := by
  obtain ⟨i, hi⟩ := h.exists_item
  exact (h.valid i hi).viable

/-- The right-hand side of a complete item is what the path ends with. -/
theorem handle (h : (of options g).Path xs ss) {q : Nat} {p : Production} (hq : g.productions[q]? = some p)
    (hi : ⟨q, p.rhs.length⟩ ∈ (of options g).itemsAt (ss.headD 0)) : ∃ before, xs = p.rhs.reverse ++ before := by
  obtain ⟨before, hx⟩ := (h.valid _ hi).handle hq
  refine ⟨before.reverse, ?_⟩
  rw [← List.reverse_append, ← hx, List.reverse_reverse]

end Path

end Automaton

end ShiftReduce
