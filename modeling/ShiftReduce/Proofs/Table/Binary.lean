import ShiftReduce.Proofs.Table.Bytes
import ShiftReduce.Proofs.Table.Consistency
import ShiftReduce.Table.Binary

/-!
# Table files come back as what was written

`Tables.readBody_eq_some`: what follows the signature is read as tables exactly when it is what is written of them.
Some lengths stand in no file and are taken from others, so this needs lists that are as long as one another
(`Framed`); consistent tables have such lists. So reading gives exactly the consistent tables that were written
(`read_eq_ok_iff`), and the file of a grammar's tables is always read (`consistent_of`).
-/

namespace ShiftReduce

namespace Tables

open Bytes

/-- The counts that stand at the head of a table file are words. -/
structure Counted (t : Tables) : Prop where
  states : t.stateCount < UInt32.size
  productions : t.productionCount < UInt32.size
  shiftEntries : t.shift.entries.length < UInt32.size
  gotoEntries : t.goto.entries.length < UInt32.size

/-- The lists are as long as the head of a table file can say: one length stands for all lists on states, and one
for all lists on productions. -/
structure Framed (t : Tables) : Prop extends t.Counted where
  shift : t.shift.offsets.length = t.stateCount
  goto : t.goto.offsets.length = t.stateCount
  lengths : t.lengths.length = t.productionCount
  words : t.lookahead.words.length = t.productionCount * t.lookahead.wordsPerRow.toNat

variable {t : Tables} {bytes rest : List UInt8}

theorem Fits.framed (h : t.Fits) (hcounted : t.Counted) : t.Framed where
  toCounted := hcounted
  shift := h.shift.count
  goto := h.goto.count
  lengths := h.lengths
  words := by rw [h.words, h.width, Nat.mul_comm]

theorem readSegments_eq_some {states entries : UInt32} {s : Segments} :
    readSegments states entries bytes = some (s, rest) ↔ s.offsets.length = states.toNat ∧
      s.entries.length = entries.toNat ∧ bytes = segmentBytes s ++ rest := by
  have hbytes : segmentBytes s ++ rest =
      s.offsets.flatMap ofWord ++ ((s.entries.flatMap fun e => ofWord e.1 ++ ofWord e.2) ++ rest) :=
    List.append_assoc ..
  simp only [readSegments, bind_eq_some, pure_eq_some, many_eq_some reads_word, many_eq_some reads_wordPair]
  constructor
  · rintro ⟨offsets, _, ⟨hoffsets, rfl⟩, pairs, _, ⟨hpairs, rfl⟩, rfl, rfl⟩
    exact ⟨hoffsets, hpairs, hbytes.symm⟩
  · rintro ⟨hoffsets, hentries, rfl⟩
    exact ⟨_, _, ⟨hoffsets, hbytes⟩, _, rest, ⟨hentries, rfl⟩, rfl, rfl⟩

/-- What is written behind the signature. -/
def body (t : Tables) : List UInt8 :=
  ofWords t.headWords ++ segmentBytes t.shift ++ segmentBytes t.goto ++ ofWords t.reduce ++ ofWords t.heads
    ++ ofWords t.lengths ++ t.lookahead.words.flatMap ofLongWord

theorem write_eq (t : Tables) : t.write = signature ++ t.body := by
  simp only [write, body, List.append_assoc]

/-- The parts of a body, each with all that stands behind it. -/
theorem body_append (t : Tables) (rest : List UInt8) : t.body ++ rest =
    ofWord t.terminalCount ++ (ofWord t.nonterminalCount ++ (ofWord t.start ++ (ofWord (UInt32.ofNat t.stateCount) ++
      (ofWord (UInt32.ofNat t.productionCount) ++ (ofWord (UInt32.ofNat t.shift.entries.length) ++
      (ofWord (UInt32.ofNat t.goto.entries.length) ++ (ofWord t.lookahead.wordsPerRow ++
      (ofWord t.shiftReduceConflicts ++ (ofWord t.reduceReduceConflicts ++ (segmentBytes t.shift ++
      (segmentBytes t.goto ++ (t.reduce.flatMap ofWord ++ (t.heads.flatMap ofWord ++ (t.lengths.flatMap ofWord ++
      (t.lookahead.words.flatMap ofLongWord ++ rest))))))))))))))) := by
  simp only [body, headWords, ofWords, List.flatMap_cons, List.flatMap_nil, List.append_nil, List.append_assoc]

theorem readBody_eq_some : readBody bytes = some (t, rest) ↔ t.Framed ∧ bytes = t.body ++ rest := by
  simp only [readBody, bind_eq_some, pure_eq_some, reads_word _ _ _, readSegments_eq_some,
    many_eq_some reads_word, many_eq_some reads_longWord]
  constructor
  · rintro ⟨terminalCount, _, h₁, nonterminalCount, _, h₂, start, _, h₃, states, _, h₄, productions, _, h₅,
      shiftEntries, _, h₆, gotoEntries, _, h₇, wordsPerRow, _, h₈, shiftReduceConflicts, _, h₉,
      reduceReduceConflicts, _, h₁₀, shift, _, ⟨hshift, hshiftEntries, h₁₁⟩, goto, _, ⟨hgoto, hgotoEntries, h₁₂⟩,
      reduce, _, ⟨hreduce, h₁₃⟩, heads, _, ⟨hheads, h₁₄⟩, lengths, _, ⟨hlengths, h₁₅⟩, words, _, ⟨hwords, h₁₆⟩,
      rfl, rfl⟩
    -- each part stands in front of all that is read after it
    subst h₁₆ h₁₅ h₁₄ h₁₃ h₁₂ h₁₁ h₁₀ h₉ h₈ h₇ h₆ h₅ h₄ h₃ h₂ h₁
    refine ⟨⟨⟨?_, ?_, ?_, ?_⟩, hshift.trans hreduce.symm, hgoto.trans hreduce.symm, hlengths.trans hheads.symm, ?_⟩, ?_⟩
    · exact hreduce.trans_lt states.toNat_lt
    · exact hheads.trans_lt productions.toNat_lt
    · exact hshiftEntries.trans_lt shiftEntries.toNat_lt
    · exact hgotoEntries.trans_lt gotoEntries.toNat_lt
    · rw [hwords, productionCount, hheads]
    · rw [body_append]
      simp only [stateCount, productionCount, hreduce, hheads, hshiftEntries, hgotoEntries, UInt32.ofNat_toNat]
  · rintro ⟨h, rfl⟩
    have hstates : t.stateCount = (UInt32.ofNat t.stateCount).toNat := (UInt32.toNat_ofNat_of_lt' h.states).symm
    have hproductions : t.productionCount = (UInt32.ofNat t.productionCount).toNat :=
      (UInt32.toNat_ofNat_of_lt' h.productions).symm
    have hwords := h.words
    rw [hproductions] at hwords
    exact ⟨_, _, body_append t rest, _, _, rfl, _, _, rfl, _, _, rfl, _, _, rfl, _, _, rfl, _, _, rfl, _, _, rfl,
      _, _, rfl, _, _, rfl, _, _, ⟨h.shift.trans hstates, (UInt32.toNat_ofNat_of_lt' h.shiftEntries).symm, rfl⟩,
      _, _, ⟨h.goto.trans hstates, (UInt32.toNat_ofNat_of_lt' h.gotoEntries).symm, rfl⟩, _, _, ⟨hstates, rfl⟩,
      _, _, ⟨hproductions, rfl⟩, _, _, ⟨h.lengths.trans hproductions, rfl⟩, _, _, ⟨hwords, rfl⟩, rfl, rfl⟩

/-- What is written of consistent tables is read, and what stands behind it is left. -/
theorem read_write (h : t.Consistent) (hcounted : t.Counted) : read (t.write ++ rest) = .ok (t, rest) := by
  have hsignature : take signature.length (t.write ++ rest) = some (signature, t.body ++ rest) :=
    take_eq_some.mpr ⟨rfl, by rw [write_eq, List.append_assoc]⟩
  have hbody : readBody (t.body ++ rest) = some (t, rest) :=
    readBody_eq_some.mpr ⟨(consistent_iff_fits.mp h).framed hcounted, rfl⟩
  have hnone : t.inconsistency? = none := h
  simp only [read, hsignature, hbody, hnone, ne_eq, not_true_eq_false, if_false]

/-- Bytes that are read are what is written of the tables, but for those that are left. -/
theorem write_of_read (h : read bytes = .ok (t, rest)) : bytes = t.write ++ rest ∧ t.Consistent ∧ t.Counted := by
  unfold read at h
  split at h
  · cases h
  next found behind hsignature =>
  split at h
  · cases h
  next hfound =>
  split at h
  · cases h
  next t' rest' hbody =>
  split at h
  · cases h
  next hnone =>
  obtain ⟨rfl, rfl⟩ := Prod.mk.inj (Except.ok.inj h)
  obtain ⟨-, rfl⟩ := take_eq_some.mp hsignature
  obtain ⟨hframed, rfl⟩ := readBody_eq_some.mp hbody
  refine ⟨?_, hnone, hframed.toCounted⟩
  rw [write_eq, List.append_assoc, Decidable.not_not.mp hfound]

theorem consistent_of_read (h : read bytes = .ok (t, rest)) : t.Consistent :=
  (write_of_read h).2.1

/-- Bytes are read as tables exactly when they are what is written of these tables with what is left behind it, the
tables are consistent and their counts are words. -/
theorem read_eq_ok_iff : read bytes = .ok (t, rest) ↔ bytes = t.write ++ rest ∧ t.Consistent ∧ t.Counted := by
  refine ⟨write_of_read, ?_⟩
  rintro ⟨rfl, h, hcounted⟩
  exact read_write h hcounted

section

variable {g : Grammar} {options : Options}

theorem counted_of (h : (Automaton.of options g).Sized g) : (Tables.of options g).Counted where
  states := stateCount_of.trans_lt h.states
  productions := by
    change (g.productions.map fun p => UInt32.ofNat p.lhs).length < UInt32.size
    rw [List.length_map]
    exact h.productions
  shiftEntries := h.shift
  gotoEntries := h.goto

/-- The tables of every grammar are consistent, whatever the options, and their file is read as them. -/
theorem consistent_of (h : (Automaton.of options g).Sized g) : (Tables.of options g).Consistent ∧
    ∀ rest, read ((Tables.of options g).write ++ rest) = .ok (Tables.of options g, rest) := by
  have hcons : (Tables.of options g).Consistent := consistent_iff_fits.mpr (fits_of_sized h)
  exact ⟨hcons, fun rest => read_write hcons (counted_of h)⟩

/-- The last of several reduces is kept and put before the shift on `a`; a byte is left behind the tables. -/
theorem consistent_of_nested : (Automaton.of ⟨.lr0, .reduce, .last⟩ .nested).Sized .nested ∧
    (Tables.of ⟨.lr0, .reduce, .last⟩ .nested).Consistent ∧
    read ((Tables.of ⟨.lr0, .reduce, .last⟩ .nested).write ++ [0xFF]) =
      .ok (Tables.of ⟨.lr0, .reduce, .last⟩ .nested, [0xFF]) := by
  have hsized : (Automaton.of ⟨.lr0, .reduce, .last⟩ .nested).Sized .nested :=
    Automaton.Small.sized (by decide +kernel)
  obtain ⟨hcons, hread⟩ := consistent_of hsized
  exact ⟨hsized, hcons, hread [0xFF]⟩

end

end Tables

end ShiftReduce
