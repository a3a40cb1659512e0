import ShiftReduce.Proofs.Table.Binary

/-!
# Table files that are cut off

The numbers at the head of a table file say how long it is, so no table file begins with another
(`Tables.Framed.eq_of_isPrefix`). Bytes are truncated if they end within the signature, or if they open with it and do
not begin with a whole file (`read_eq_truncated_iff`). So a file that is cut anywhere is known to be cut
(`read_take_write`).
-/

namespace ShiftReduce.Tables

open Bytes

variable {t t' : Tables} {bytes : List UInt8} {n : Nat}

theorem signature_isPrefix_write (t : Tables) : signature <+: t.write :=
  ⟨t.body, t.write_eq.symm⟩

/-- No table file begins with another. -/
theorem Framed.eq_of_isPrefix (h : t.Framed) (h' : t'.Framed) (hbegins : t'.write <+: t.write) : t' = t := by
  obtain ⟨rest, hrest⟩ := hbegins
  rw [write_eq, write_eq, List.append_assoc, List.append_cancel_left_eq] at hrest
  have hwhole : readBody (t'.body ++ rest) = some (t, []) :=
    readBody_eq_some.mpr ⟨h, by rw [hrest, List.append_nil]⟩
  have hfront : readBody (t'.body ++ rest) = some (t', rest) := readBody_eq_some.mpr ⟨h', rfl⟩
  rw [hfront] at hwhole
  exact (Prod.mk.inj (Option.some.inj hwhole)).1

theorem readBody_eq_none : readBody bytes = none ↔ ∀ t : Tables, t.Framed → ¬ t.body <+: bytes := by
  constructor
  · rintro h t ht ⟨rest, rfl⟩
    rw [readBody_eq_some.mpr ⟨ht, rfl⟩] at h
    cases h
  · intro h
    cases hbody : readBody bytes with
    | none => rfl
    | some found =>
      obtain ⟨ht, hbytes⟩ := readBody_eq_some.mp hbody
      exact absurd ⟨found.2, hbytes.symm⟩ (h found.1 ht)

/-- Bytes are truncated if they end within the signature, or if they open with it and hold no whole table file. -/
theorem read_eq_truncated_iff : read bytes = .error .truncated ↔
    bytes.length < signature.length ∨ signature <+: bytes ∧ ∀ t : Tables, t.Framed → ¬ t.write <+: bytes := by
  unfold read
  cases htake : take signature.length bytes with
  | none => exact iff_of_true rfl (.inl (take_eq_none.mp htake))
  | some found =>
  obtain ⟨found, rest⟩ := found
  obtain ⟨hlen, rfl⟩ := take_eq_some.mp htake
  have hlong : ¬ (found ++ rest).length < signature.length := by
    rw [List.length_append]
    omega
  by_cases hfound : found = signature
  · subst hfound
    have hfiles : (∀ t : Tables, t.Framed → ¬ t.write <+: signature ++ rest) ↔ readBody rest = none := by
      simp only [readBody_eq_none, write_eq, List.prefix_append_right_inj]
    simp only [ne_eq, not_true_eq_false, if_false, hlong, false_or, List.prefix_append, true_and, hfiles]
    cases hbody : readBody rest with
    | none => simp
    | some found =>
      simp only [reduceCtorEq, iff_false]
      split <;> simp
  · have hother : ¬ signature <+: found ++ rest := by
      intro hbegins
      have hsame := List.prefix_of_prefix_length_le hbegins (List.prefix_append found rest) (Nat.le_of_eq hlen.symm)
      exact hfound (hsame.eq_of_length hlen.symm).symm
    simp only [ne_eq, hfound, not_false_eq_true, if_true, hlong, hother, false_and, or_false, iff_false]
    exact fun h => by cases h

/-- The file of consistent tables that is cut off after any number of its bytes is truncated, whatever the cut falls
into. -/
theorem read_take_write (h : t.Consistent) (hcounted : t.Counted) (hn : n < t.write.length) :
    read (t.write.take n) = .error .truncated := by
  have hframed := (consistent_iff_fits.mp h).framed hcounted
  have hcut : (t.write.take n).length = n := List.length_take_of_le (Nat.le_of_lt hn)
  rw [read_eq_truncated_iff, hcut]
  rcases Nat.lt_or_ge n signature.length with hshort | hlong
  · exact .inl hshort
  right
  constructor
  · refine List.prefix_of_prefix_length_le t.signature_isPrefix_write (List.take_prefix n _) ?_
    rwa [hcut]
  · intro t' hframed' hbegins
    -- a whole file in the cut one is the file itself, which is longer
    obtain rfl := hframed.eq_of_isPrefix hframed' (hbegins.trans (List.take_prefix n _))
    have hle := hbegins.length_le
    omega

/-- The last word of the lookahead is cut in two. -/
theorem read_take_write_nested : (Tables.of ⟨.slr, .shift, .first⟩ .nested).Consistent ∧
    (Tables.of ⟨.slr, .shift, .first⟩ .nested).Counted ∧ 187 < (Tables.of ⟨.slr, .shift, .first⟩ .nested).write.length ∧
    read ((Tables.of ⟨.slr, .shift, .first⟩ .nested).write.take 187) = .error .truncated := by
  have hsized : (Automaton.of ⟨.slr, .shift, .first⟩ .nested).Sized .nested :=
    Automaton.Small.sized (by decide +kernel)
  have hcons : (Tables.of ⟨.slr, .shift, .first⟩ .nested).Consistent := consistent_iff_fits.mpr (fits_of_sized hsized)
  have hlen : 187 < (Tables.of ⟨.slr, .shift, .first⟩ .nested).write.length := by decide +kernel
  exact ⟨hcons, counted_of hsized, hlen, read_take_write hcons (counted_of hsized) hlen⟩

end ShiftReduce.Tables
