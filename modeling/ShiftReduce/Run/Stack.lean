import ShiftReduce.Table.Segments

/-!
# Stacks

A stack of states with its depth at hand. A run starts with state 0 and puts the others above it. A stack
can be empty and may be asked for more states than it has, which is a fault.
-/

namespace ShiftReduce

structure Stack where
  /-- the states, the topmost first -/
  states : List Nat
  /-- how many they are -/
  depth : Nat
  depth_eq : depth = states.length
deriving DecidableEq

namespace Stack

/-- The stack of state 0 alone. -/
def bottom : Stack :=
  ⟨[0], 1, rfl⟩

variable (s : Stack)

/-- The states, the lowest first. -/
def toList : List Nat :=
  s.states.reverse

/-- The state on top. -/
def peek : Except Fault Nat :=
  match s.states with
  | [] => .error .emptyStack
  | state :: _ => .ok state

/-- The number of states above the lowest one. -/
def available : Except Fault Nat :=
  if s.depth = 0 then .error .emptyStack else .ok (s.depth - 1)

/-- The stack with a state put on it. -/
def push (state : Nat) : Stack :=
  ⟨state :: s.states, s.depth + 1, by rw [List.length_cons, ← s.depth_eq]⟩

theorem depth_sub (count : Nat) : s.depth - count = (s.states.drop count).length := by
  rw [List.length_drop, ← s.depth_eq]

/-- The stack with some states taken off. -/
def drop (count : Nat) : Except Fault Stack :=
  if s.depth < count then .error (.shortStack count s.depth)
  else .ok ⟨s.states.drop count, s.depth - count, s.depth_sub count⟩

/-- The stack of the lowest state alone, if there is any. -/
def lowest : Stack :=
  ⟨s.states.drop (s.depth - 1), min 1 s.depth, by rw [List.length_drop, ← s.depth_eq]; omega⟩

theorem length_toList : s.toList.length = s.depth := by simp [toList, s.depth_eq]

@[simp] theorem states_push (state : Nat) : (s.push state).states = state :: s.states := rfl

end Stack

end ShiftReduce
