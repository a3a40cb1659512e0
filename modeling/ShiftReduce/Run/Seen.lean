import Std.Data.TreeMap

/-!
# Stacks seen

Which stacks a run has made since it read its token, as far as they are told apart by their depth and the
state on top. A set of such pairs, kept by depth.
-/

namespace ShiftReduce

/-- A set of pairs of the depth of a stack and the state on top of it. -/
structure Seen where
  /-- the states on top, by depth -/
  tops : Std.TreeMap Nat (List Nat)

namespace Seen

def empty : Seen :=
  ⟨∅⟩

variable (s : Seen)

/-- Whether a stack of this depth with this state on top was seen. -/
def contains (depth top : Nat) : Bool :=
  (s.tops.getD depth []).contains top

/-- With a stack of this depth and this state on top seen as well. -/
def insert (depth top : Nat) : Seen :=
  ⟨s.tops.insert depth (top :: s.tops.getD depth [])⟩

@[simp] theorem contains_empty (depth top : Nat) : empty.contains depth top = false := by
  simp [contains, empty]

theorem contains_insert {depth top depth' top' : Nat} :
    (s.insert depth top).contains depth' top'
      ↔ depth' = depth ∧ top' = top ∨ s.contains depth' top' := by
  by_cases h : depth' = depth
  · subst h; simp [contains, insert]
  · simp [contains, insert, Std.TreeMap.getD_insert, h, Ne.symm h]

end Seen

end ShiftReduce
