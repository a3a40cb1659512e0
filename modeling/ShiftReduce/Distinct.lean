/-!
# First occurrences

A list read from the left, with the first occurrence of each element told from its repeats.
`firstRepeat?_eq_none` says that a list without a repeat is a `Nodup` list.
-/

namespace ShiftReduce

variable {α : Type} [DecidableEq α]

/-- The first element that is in `seen` or equals an earlier one. -/
def firstRepeatFrom? (seen : List α) : List α → Option α
  | [] => none
  | a :: as => if a ∈ seen then some a else firstRepeatFrom? (a :: seen) as

def firstRepeat? (as : List α) : Option α :=
  firstRepeatFrom? [] as

/-- The first occurrences of the elements that are not in `seen`, in order. -/
def distinctFrom (seen : List α) : List α → List α
  | [] => []
  | a :: as => if a ∈ seen then distinctFrom seen as else a :: distinctFrom (a :: seen) as

def distinct (as : List α) : List α :=
  distinctFrom [] as

/-- The elements that are in `seen` or repeat an earlier one, in order. -/
def repeatsFrom (seen : List α) : List α → List α
  | [] => []
  | a :: as => if a ∈ seen then a :: repeatsFrom seen as else repeatsFrom (a :: seen) as

/-- The elements that repeat an earlier one, in order. -/
def repeats (as : List α) : List α :=
  repeatsFrom [] as

theorem firstRepeatFrom?_eq_none {seen as : List α} :
    firstRepeatFrom? seen as = none ↔ as.Nodup ∧ ∀ a ∈ as, a ∉ seen := by
  induction as generalizing seen with
  | nil => simp [firstRepeatFrom?]
  | cons a as ih =>
    by_cases h : a ∈ seen
    · simp [firstRepeatFrom?, h]
    · simp only [firstRepeatFrom?, h, if_false, ih, List.nodup_cons, List.mem_cons]
      grind

theorem firstRepeat?_eq_none {as : List α} : firstRepeat? as = none ↔ as.Nodup := by
  simp [firstRepeat?, firstRepeatFrom?_eq_none]

end ShiftReduce
