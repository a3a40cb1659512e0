import ShiftReduce.Grammar.Basic
import ShiftReduce.Reach

/-!
# Items and item sets

An item is a production with a dot in its right-hand side: the symbols before the dot are recognized.
Item sets are kept ascending by production and dot, so that two sets with the same members are equal
(`ItemSet.ext_mem`) and a set can be compared, searched for and printed.

When an item expects a nonterminal, the productions of the nonterminal are expected too, and so on: the
closure of a set. The nonterminals that a set of items expects are those that its next symbols lead to by
passing from a nonterminal to the first symbols of its right-hand sides.
-/

namespace ShiftReduce

/-- A place in the right-hand side of a production. -/
structure Item where
  production : Nat
  dot : Nat
deriving DecidableEq

namespace Item

/-- The item is listed before the other one. -/
def Before (i j : Item) : Prop :=
  i.production < j.production ∨ i.production = j.production ∧ i.dot < j.dot

instance (i j : Item) : Decidable (i.Before j) := by
  unfold Before; infer_instance

theorem Before.trans {i j k : Item} (h : i.Before j) (h' : j.Before k) : i.Before k := by
  unfold Before at *; omega

theorem not_before_self (i : Item) : ¬ i.Before i := by
  unfold Before; omega

theorem before_or_eq_or_before (i j : Item) : i.Before j ∨ i = j ∨ j.Before i := by
  cases i; cases j
  simp only [Before, Item.mk.injEq]
  omega

/-- The item with nothing recognized. -/
def atStart (p : Nat) : Item :=
  ⟨p, 0⟩

/-- The item with the dot moved over one symbol. -/
def shifted (i : Item) : Item :=
  ⟨i.production, i.dot + 1⟩

def next? (g : Grammar) (i : Item) : Option Nat :=
  (g.rhs i.production)[i.dot]?

def isComplete (g : Grammar) (i : Item) : Bool :=
  (g.rhs i.production).length ≤ i.dot

/-- The production in names, with a point where the dot is. -/
def display (g : Grammar) (i : Item) : String :=
  match g.productions[i.production]? with
  | none => ""
  | some p =>
    let body := p.rhs.map g.symbols.name
    Text.spaced (g.symbols.name p.lhs :: "->" :: (body.take i.dot ++ "." :: body.drop i.dot))

end Item

/-- A finite set of items, listed in ascending order. -/
structure ItemSet where
  items : List Item
  sorted : items.Pairwise Item.Before
deriving DecidableEq

/-- Puts an item at its place in an ascending list, unless it is there. -/
def insertItem (i : Item) : List Item → List Item
  | [] => [i]
  | j :: js =>
    if i.Before j then i :: j :: js
    else if i = j then j :: js
    else j :: insertItem i js

theorem mem_insertItem {i j : Item} {js : List Item} : j ∈ insertItem i js ↔ j = i ∨ j ∈ js := by
  induction js with
  | nil => simp [insertItem]
  | cons k ks ih =>
    rw [insertItem]
    split
    · simp
    split
    · next h => subst h; simp
    · simp only [List.mem_cons, ih]
      grind

theorem sorted_insertItem {i : Item} {js : List Item} (h : js.Pairwise Item.Before) :
    (insertItem i js).Pairwise Item.Before := by
  induction js with
  | nil => simp [insertItem]
  | cons k ks ih =>
    obtain ⟨hk, hks⟩ := List.pairwise_cons.mp h
    rw [insertItem]
    split
    · next hik =>
      refine List.pairwise_cons.mpr ⟨fun j hj => ?_, h⟩
      rcases List.mem_cons.mp hj with rfl | hj
      · exact hik
      · exact hik.trans (hk j hj)
    split
    · exact h
    · next hik hne =>
      refine List.pairwise_cons.mpr ⟨fun j hj => ?_, ih hks⟩
      rcases mem_insertItem.mp hj with rfl | hj
      · rcases Item.before_or_eq_or_before j k with hb | hb | hb
        · exact absurd hb hik
        · exact absurd hb hne
        · exact hb
      · exact hk j hj

namespace ItemSet

instance : Membership Item ItemSet :=
  ⟨fun s i => i ∈ s.items⟩

instance (i : Item) (s : ItemSet) : Decidable (i ∈ s) :=
  inferInstanceAs (Decidable (i ∈ s.items))

def empty : ItemSet :=
  ⟨[], .nil⟩

def insert (s : ItemSet) (i : Item) : ItemSet :=
  ⟨insertItem i s.items, sorted_insertItem s.sorted⟩

def insertAll (s : ItemSet) (is : List Item) : ItemSet :=
  is.foldl insert s

/-- The set of the items of a list, in any order and with repeats. -/
def ofList (is : List Item) : ItemSet :=
  empty.insertAll is

/-- The items of the set that are not in `t`. -/
def diff (s t : ItemSet) : ItemSet :=
  ⟨s.items.filter (· ∉ t), s.sorted.filter _⟩

theorem mem_insert {s : ItemSet} {i j : Item} : j ∈ s.insert i ↔ j = i ∨ j ∈ s :=
  mem_insertItem

theorem mem_insertAll {s : ItemSet} {is : List Item} {j : Item} :
    j ∈ s.insertAll is ↔ j ∈ is ∨ j ∈ s := by
  induction is generalizing s with
  | nil => simp [insertAll]
  | cons i is ih =>
    rw [insertAll, List.foldl_cons, ← insertAll, ih, mem_insert, List.mem_cons]
    grind

theorem mem_ofList {is : List Item} {j : Item} : j ∈ ofList is ↔ j ∈ is := by
  rw [ofList, mem_insertAll]
  exact or_iff_left (List.not_mem_nil (a := j))

theorem mem_diff {s t : ItemSet} {j : Item} : j ∈ s.diff t ↔ j ∈ s ∧ j ∉ t := by
  change j ∈ s.items.filter (· ∉ t) ↔ j ∈ s.items ∧ j ∉ t
  simp

/-- The numbers of the items one after the other, by which sets can be ordered. -/
def code (s : ItemSet) : List Nat :=
  s.items.flatMap fun i => [i.production, i.dot]

/-- A set is known by its code. -/
theorem code_inj {s t : ItemSet} : s.code = t.code ↔ s = t := by
  have inj : ∀ {is js : List Item}, (is.flatMap fun i => [i.production, i.dot])
      = (js.flatMap fun i => [i.production, i.dot]) → is = js := by
    intro is
    induction is with
    | nil => intro js h; cases js <;> simp_all
    | cons i is ih =>
      intro js h
      cases js with
      | nil => simp at h
      | cons j js =>
        obtain ⟨p, d⟩ := i
        obtain ⟨q, e⟩ := j
        simp only [List.flatMap_cons, List.cons_append, List.nil_append, List.cons.injEq] at h
        obtain ⟨rfl, rfl, h⟩ := h
        rw [ih h]
  refine ⟨fun h => ?_, fun h => h ▸ rfl⟩
  obtain ⟨is, hs⟩ := s
  obtain ⟨js, ht⟩ := t
  obtain rfl := inj h
  rfl

/-- Sets with the same members are equal. -/
theorem ext_mem {s t : ItemSet} (h : ∀ i, i ∈ s ↔ i ∈ t) : s = t := by
  have sub : ∀ {is js : List Item}, is.Pairwise Item.Before → js.Pairwise Item.Before →
      (∀ i, i ∈ is ↔ i ∈ js) → is = js := by
    intro is
    induction is with
    | nil =>
      intro js _ _ h
      cases js with
      | nil => rfl
      | cons j js => exact absurd ((h j).mpr List.mem_cons_self) List.not_mem_nil
    | cons i is ih =>
      intro js hi hj h
      cases js with
      | nil => exact absurd ((h i).mp List.mem_cons_self) List.not_mem_nil
      | cons j js =>
        obtain ⟨hi, his⟩ := List.pairwise_cons.mp hi
        obtain ⟨hj, hjs⟩ := List.pairwise_cons.mp hj
        have hij : i = j := by
          rcases List.mem_cons.mp ((h i).mp List.mem_cons_self) with e | e
          · exact e
          rcases List.mem_cons.mp ((h j).mpr List.mem_cons_self) with e' | e'
          · exact e'.symm
          · exact absurd ((hj i e).trans (hi j e')) (Item.not_before_self j)
        subst hij
        have hne : ∀ {k : Item} {ks : List Item}, (∀ l ∈ ks, k.Before l) → k ∉ ks :=
          fun hk hm => Item.not_before_self _ (hk _ hm)
        refine congrArg _ (ih his hjs fun k => ⟨fun hk => ?_, fun hk => ?_⟩)
        · rcases List.mem_cons.mp ((h k).mp (List.mem_cons_of_mem _ hk)) with rfl | hm
          · exact absurd hk (hne hi)
          · exact hm
        · rcases List.mem_cons.mp ((h k).mpr (List.mem_cons_of_mem _ hk)) with rfl | hm
          · exact absurd hk (hne hj)
          · exact hm
  obtain ⟨is, hs⟩ := s
  obtain ⟨js, ht⟩ := t
  have := sub hs ht h
  subst this
  rfl

end ItemSet

namespace Grammar

variable (g : Grammar)

/-- The nonterminals that open a right-hand side of a nonterminal. -/
def openers (a : Nat) : List Nat :=
  ((g.bodiesOf a).filterMap (·.head?)).filter g.symbols.isNonterminal

/-- The nonterminals that stand behind the dot of an item. -/
def awaited (items : List Item) : List Nat :=
  (items.filterMap (·.next? g)).filter g.symbols.isNonterminal

/-- The nonterminals that the items expect, at once or after passing to first symbols. -/
def expected (items : List Item) : List Nat :=
  reach g.openers g.symbols.size (g.awaited items)

/-- The items together with the starting items of every nonterminal that they expect. -/
def closure (s : ItemSet) : ItemSet :=
  let heads := g.expected s.items
  s.insertAll ((g.idsWhere (heads.contains ·)).map Item.atStart)

end Grammar

end ShiftReduce
