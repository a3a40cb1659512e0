/-!
# Numbered lists

A list that grows at its end and whose elements are known by the 32-bit number of their position. An element that is
pushed is found under the number that it gets, and it keeps this number (`get?_push`, `get?_push_of_some`), as long as
there are numbers left.
-/

namespace ShiftReduce

/-- The number of a position. -/
def numberOf (position : Nat) : UInt32 :=
  UInt32.ofNat position

theorem toNat_numberOf {position : Nat} (h : position < UInt32.size) : (numberOf position).toNat = position :=
  UInt32.toNat_ofNat_of_lt' h

/-- Elements known by their number. -/
structure Numbered (α : Type) where
  elements : List α
deriving DecidableEq

namespace Numbered

variable {α : Type} (l : Numbered α)

def empty : Numbered α :=
  ⟨[]⟩

def push (a : α) : UInt32 × Numbered α :=
  (numberOf l.elements.length, ⟨l.elements ++ [a]⟩)

/-- The element with a number. -/
def get? (n : UInt32) : Option α :=
  l.elements[n.toNat]?

/-- The list with another element under a number, if there is one under it. -/
def set? (n : UInt32) (a : α) : Option (Numbered α) :=
  if n.toNat < l.elements.length then some ⟨l.elements.set n.toNat a⟩ else none

variable {l} {l' : Numbered α} {a b : α} {m n : UInt32} {position : Nat}

theorem get?_numberOf (h : position < UInt32.size) : l.get? (numberOf position) = l.elements[position]? := by
  rw [get?, toNat_numberOf h]

/-- A number is given to one element only. -/
theorem get?_of_push (h : l.elements.length < UInt32.size) (a : α) : l.get? (l.push a).1 = none := by
  rw [push, get?_numberOf h, List.getElem?_eq_none (Nat.le_refl _)]

theorem get?_push (h : l.elements.length < UInt32.size) (a : α) : (l.push a).2.get? (l.push a).1 = some a := by
  rw [push, get?_numberOf h, List.getElem?_concat_length]

theorem get?_push_of_some (h : l.get? n = some b) (a : α) : (l.push a).2.get? n = some b := by
  obtain ⟨hlt, hb⟩ := List.getElem?_eq_some_iff.mp h
  rw [push, get?, List.getElem?_append_left hlt]
  exact h

/-- Elements that are pushed one after the other get the numbers of their positions. -/
theorem get?_foldl_push (as : List α) (h : position < UInt32.size) :
    (as.foldl (fun l a => (l.push a).2) empty).get? (numberOf position) = as[position]? := by
  have hall : ∀ l : Numbered α, (as.foldl (fun l a => (l.push a).2) l).elements = l.elements ++ as := by
    induction as with
    | nil => simp
    | cons a as ih =>
      intro l
      rw [List.foldl_cons, ih, push, List.append_assoc, List.singleton_append]
  rw [get?_numberOf h, hall, empty, List.nil_append]

theorem get?_set? (h : l.set? n a = some l') : l'.get? n = some a := by
  rw [set?] at h
  split at h
  · next hlt =>
    obtain rfl := Option.some.inj h
    rw [get?, List.getElem?_set_self hlt]
  · cases h

theorem get?_set?_of_ne (h : l.set? n a = some l') (hne : m ≠ n) : l'.get? m = l.get? m := by
  rw [set?] at h
  split at h
  · obtain rfl := Option.some.inj h
    have hpos : n.toNat ≠ m.toNat := fun heq => hne (UInt32.toNat_inj.mp heq.symm)
    rw [get?, get?, List.getElem?_set_ne hpos]
  · cases h

theorem isSome_set? : (l.set? n a).isSome = (l.get? n).isSome := by
  rw [set?, get?]
  by_cases hlt : n.toNat < l.elements.length <;> simp [hlt]

end Numbered

end ShiftReduce
