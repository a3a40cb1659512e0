import Mathlib.Algebra.Group.Nat.Defs
import ShiftReduce.Table.BitRows
import ShiftReduce.Table.Segments

/-!
# Numbers come back from their words

`Segments.lookup_ofRows`: looking up a symbol in rows that were laid end to end finds what stands beside it
in the row of the state, as long as every number is below the word that is kept for a missing one.
`BitRows.contains_ofSets`: a bit row holds the numbers of its set.
-/

namespace ShiftReduce

/-- The numbers below this one are kept in a word and are not taken for a missing number. -/
def wordLimit : Nat :=
  UInt32.size - 1

theorem toNat_absent : absent.toNat = wordLimit :=
  rfl

theorem lt_size {n : Nat} (h : n < wordLimit) : n < UInt32.size :=
  Nat.lt_of_lt_of_le h (by decide)

theorem toNat_ofNat {n : Nat} (h : n < wordLimit) : (UInt32.ofNat n).toNat = n :=
  UInt32.toNat_ofNat_of_lt' (lt_size h)

theorem ofNat_ne_absent {n : Nat} (h : n < wordLimit) : UInt32.ofNat n ≠ absent := fun e => by
  have := congrArg UInt32.toNat e
  rw [toNat_ofNat h, toNat_absent] at this
  omega

theorem present?_ofNat {n : Nat} (h : n < wordLimit) : present? (UInt32.ofNat n) = some n := by
  rw [present?, if_neg (ofNat_ne_absent h), toNat_ofNat h]

theorem present?_absent : present? absent = none :=
  if_pos rfl

/-- A number below a count that is a word is not taken for a missing one. -/
theorem lt_wordLimit {n count : Nat} (h : n < count) (hcount : count < UInt32.size) : n < wordLimit := by
  rw [wordLimit]
  omega

namespace Segments

variable {rows : List (List (Nat × Nat))} {row : List (Nat × Nat)} {offset n x : Nat}

theorem layFrom_cons_of_ne (h : row ≠ []) : layFrom offset (row :: rows) =
    ⟨UInt32.ofNat offset :: (layFrom (offset + row.length + 1) rows).offsets,
      row.map entry ++ (absent, absent) :: (layFrom (offset + row.length + 1) rows).entries⟩ := by
  cases row with
  | nil => exact absurd rfl h
  | cons => rfl

theorem length_offsets_layFrom : (layFrom offset rows).offsets.length = rows.length := by
  induction rows generalizing offset with
  | nil => rfl
  | cons row rows ih =>
    by_cases h : row = []
    · subst h
      simp [layFrom, ih]
    · simp [layFrom_cons_of_ne h, ih]

/-- The row of a state starts at its offset and an end mark stands behind it; a state without entries has
no offset. -/
theorem layFrom_row (offset : Nat) (h : rows[n]? = some row) :
    row = [] ∧ (layFrom offset rows).offsets[n]? = some absent ∨
      ∃ k rest, (layFrom offset rows).offsets[n]? = some (UInt32.ofNat (offset + k)) ∧
        k < (layFrom offset rows).entries.length ∧
        (layFrom offset rows).entries.drop k = row.map entry ++ (absent, absent) :: rest := by
  induction rows generalizing offset n with
  | nil => simp at h
  | cons row' rows ih =>
    by_cases hne : row' = []
    · subst hne
      cases n with
      | zero =>
        obtain rfl := Option.some.inj h
        exact .inl ⟨rfl, rfl⟩
      | succ n => exact ih offset h
    · rw [layFrom_cons_of_ne hne]
      cases n with
      | zero =>
        obtain rfl := Option.some.inj h
        exact .inr ⟨0, _, rfl, by rw [List.length_append, List.length_cons]; omega, rfl⟩
      | succ n =>
        refine (ih (offset + row'.length + 1) h).imp_right ?_
        rintro ⟨k, rest, hk, hlt, hdrop⟩
        refine ⟨row'.length + 1 + k, rest, ?_, ?_, ?_⟩
        · simpa [Nat.add_assoc] using hk
        · simp only [List.length_append, List.length_map, List.length_cons]
          omega
        · rw [List.drop_append, List.drop_eq_nil_of_le (by simp; omega), List.nil_append, List.length_map,
            show row'.length + 1 + k - row'.length = k + 1 by omega]
          exact hdrop

theorem upToMark_row {rest : List (UInt32 × UInt32)} (h : ∀ e ∈ row, e.1 < wordLimit ∧ e.2 < wordLimit) :
    upToMark (row.map entry ++ (absent, absent) :: rest) = row := by
  induction row with
  | nil => rfl
  | cons e row ih =>
    obtain ⟨h1, h2⟩ := h e List.mem_cons_self
    have ih := ih fun e he => h e (List.mem_cons_of_mem _ he)
    simp only [List.map_cons, List.cons_append, upToMark, entry, ofNat_ne_absent h1, if_false,
      toNat_ofNat h1, toNat_numberOf (lt_size h2), ih]

theorem lookup_ofRows (hrow : rows[n]? = some row) (hsize : (ofRows rows).entries.length < wordLimit)
    (h : ∀ e ∈ row, e.1 < wordLimit ∧ e.2 < wordLimit) : (ofRows rows).lookup n x = .ok (row.lookup x) := by
  rw [ofRows] at hsize ⊢
  rcases layFrom_row 0 hrow with ⟨rfl, hoff⟩ | ⟨k, rest, hoff, hlt, hdrop⟩
  · simp [lookup, Segments.rest, hoff, present?_absent, Except.map, scan]
  · rw [Nat.zero_add] at hoff
    have hle : ¬ (layFrom 0 rows).entries.length < k := by omega
    simp only [lookup, Segments.rest, hoff, Option.bind_some, present?_ofNat (Nat.lt_trans hlt hsize),
      behind?_eq, hle, if_false, Except.map, scan_eq, hdrop, upToMark_row h]

theorem lookup_ofRows_of_none (h : rows[n]? = none) : (ofRows rows).lookup n x = .ok none := by
  have hoff : (ofRows rows).offsets[n]? = none := by
    rw [List.getElem?_eq_none_iff] at h ⊢
    rwa [ofRows, length_offsets_layFrom]
  simp [lookup, Segments.rest, hoff, Except.map, scan]

end Segments

theorem packBits_lt (bit : Nat → Bool) (count : Nat) : packBits bit count < 2 ^ count := by
  induction count with
  | zero => simp [packBits]
  | succ count ih =>
    rw [packBits, Nat.pow_eq, Nat.pow_succ]
    split <;> omega

theorem testBit_packBits {bit : Nat → Bool} {count j : Nat} (h : j < count) :
    (packBits bit count).testBit j = bit j := by
  induction count with
  | zero => omega
  | succ count ih =>
    rw [packBits, Nat.pow_eq]
    rcases Nat.lt_succ_iff_lt_or_eq.mp h with hj | rfl
    · rw [← ih hj]
      split
      · rw [Nat.add_comm, Nat.testBit_two_pow_add_gt hj]
      · rfl
    · have hlt := Nat.testBit_lt_two_pow (packBits_lt bit j)
      cases hb : bit j
      · simpa using hlt
      · simp [Nat.add_comm (packBits bit j), Nat.testBit_two_pow_add_eq, hlt]

namespace BitRows

variable {sets : List (List Nat)} {set : List Nat} {row bits x : Nat}

theorem getElem?_flatMap_pack {width j : Nat} (hj : j < width) :
    (sets.flatMap (pack width))[row * width + j]? = (sets[row]?).bind fun set => (pack width set)[j]? := by
  induction sets generalizing row with
  | nil => simp
  | cons set sets ih =>
    have hlen : (pack width set).length = width := by simp [pack]
    rw [List.flatMap_cons]
    cases row with
    | zero =>
      rw [Nat.zero_mul, Nat.zero_add, List.getElem?_append_left (hlen.symm ▸ hj)]
      rfl
    | succ row =>
      rw [List.getElem?_append_right (by rw [hlen, Nat.succ_mul]; omega), hlen, List.getElem?_cons_succ, ← ih]
      congr 1
      rw [Nat.succ_mul]
      omega

theorem contains_ofSets (hbits : bits < wordLimit) (hset : sets[row]? = some set) (hx : x < bits) :
    (ofSets bits sets).contains row x = set.contains x := by
  have hwidth : (ofSets bits sets).wordsPerRow.toNat = wordsFor bits :=
    toNat_ofNat (by rw [wordsFor, wordLimit, UInt32.size] at *; omega)
  have hlt : x < 64 * wordsFor bits := by rw [wordsFor]; omega
  have hj : x / 64 < wordsFor bits := by omega
  have hword : (ofSets bits sets).words[row * wordsFor bits + x / 64]?
      = some (UInt64.ofNat (packBits (fun j => set.contains (64 * (x / 64) + j)) 64)) := by
    change (sets.flatMap (pack (wordsFor bits)))[row * wordsFor bits + x / 64]? = _
    rw [getElem?_flatMap_pack hj, hset, Option.bind_some, pack, List.getElem?_map, List.getElem?_range hj]
    rfl
  simp only [contains, hwidth, hword, decide_eq_true hlt, Bool.true_and]
  rw [UInt64.toNat_ofNat_of_lt' (packBits_lt _ _), testBit_packBits (Nat.mod_lt _ (by decide)),
    Nat.div_add_mod]

end BitRows

end ShiftReduce
