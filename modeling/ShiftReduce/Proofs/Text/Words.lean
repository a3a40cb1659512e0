import Mathlib.Data.List.TakeWhile
import ShiftReduce.Text.Words

/-!
# Texts as words

`Spaced ws text` says how words are written: blanks before them, at least one between two of them, blanks behind.
`words_eq_iff`: a text has exactly the words that it is written with, so words that are joined by blanks are found again
(`HasWords.intercalate`). Trimming takes blanks off the two ends only (`trim_spec`), so it leaves the words as they are,
and a further character becomes a word or belongs to the last one (`words_append_solid`).
-/

namespace ShiftReduce.Text

variable {text rest gap w : List Char} {ws : List (List Char)} {c : Char} {source : String} {names : List String}

theorem pieces_eq_splitOnP (cut : Char → Bool) (text : List Char) : pieces cut text = text.splitOnP cut := by
  induction text with
  | nil => rfl
  | cons c cs ih =>
    rw [pieces, List.splitOnP_cons_eq_if_modifyHead, ih]
    split
    · rfl
    · cases h : cs.splitOnP cut with
      | nil => exact absurd h (List.splitOnP_ne_nil cut cs)
      | cons piece pieces => rfl

/-- All characters are blank. -/
def Gap (text : List Char) : Prop :=
  ∀ c ∈ text, isBlank c

/-- There is a character, and none is blank. -/
structure IsWord (w : List Char) : Prop where
  ne_nil : w ≠ []
  solid : ∀ c ∈ w, ¬ isBlank c

theorem IsWord.of_all (hne : w ≠ []) (hsolid : w.all (!isBlank ·)) : IsWord w :=
  ⟨hne, by simpa using hsolid⟩

theorem IsWord.concat (hw : IsWord w) (hc : ¬ isBlank c) : IsWord (w ++ [c]) :=
  ⟨by simp, List.forall_mem_append.mpr ⟨hw.solid, by simpa using hc⟩⟩

/-- The text is not blank at its two ends. -/
structure Tight (text : List Char) : Prop where
  head : ∀ c ∈ text.head?, ¬ isBlank c
  last : ∀ c ∈ text.getLast?, ¬ isBlank c

theorem words_append_blank (hc : isBlank c) (xs ys : List Char) : words (xs ++ c :: ys) = words xs ++ words ys := by
  simp only [words, pieces_eq_splitOnP, List.splitOnP_append_cons xs ys hc, List.filter_append]

@[simp] theorem words_nil : words [] = [] := rfl

theorem words_gap_append (hgap : Gap gap) : words (gap ++ text) = words text := by
  induction gap with
  | nil => rfl
  | cons c gap ih =>
    have hcons := words_append_blank (hgap c List.mem_cons_self) [] (gap ++ text)
    exact hcons.trans (ih fun d hd => hgap d (List.mem_cons_of_mem _ hd))

theorem words_gap (hgap : Gap gap) : words gap = [] := by
  have h : words (gap ++ []) = words [] := words_gap_append hgap
  rwa [List.append_nil] at h

theorem words_append_gap (hgap : Gap gap) : words (text ++ gap) = words text := by
  cases gap with
  | nil => rw [List.append_nil]
  | cons c gap =>
    have hrest : Gap gap := fun d hd => hgap d (List.mem_cons_of_mem c hd)
    rw [words_append_blank (hgap c List.mem_cons_self), words_gap hrest, List.append_nil]

theorem words_word (hw : IsWord w) : words w = [w] := by
  have hpieces : w.splitOnP isBlank = [w] := List.splitOnP_eq_singleton fun c hc => by simpa using hw.solid c hc
  simp [words, pieces_eq_splitOnP, hpieces, hw.ne_nil]

theorem words_word_append (hw : IsWord w) (hrest : ∀ c ∈ rest.head?, isBlank c) :
    words (w ++ rest) = w :: words rest := by
  cases rest with
  | nil => rw [List.append_nil, words_word hw, words_nil]
  | cons c rest =>
    have hc := hrest c rfl
    have hskip : words (c :: rest) = words rest := words_append_blank hc [] rest
    rw [words_append_blank hc, words_word hw, hskip]
    rfl

/-- A text is blank, or its first word stands behind blanks and before the end or a further blank. -/
theorem gap_or_word (text : List Char) : Gap text ∨ ∃ gap w rest, text = gap ++ w ++ rest ∧ Gap gap ∧ IsWord w ∧
    ∀ c ∈ rest.head?, isBlank c := by
  have hgap : Gap (text.takeWhile isBlank) := fun c hc => List.mem_takeWhile_imp hc
  have htext : text.takeWhile isBlank ++ text.dropWhile isBlank = text := List.takeWhile_append_dropWhile
  have hhead := List.head?_dropWhile_not isBlank text
  generalize text.takeWhile isBlank = gap at hgap htext
  generalize text.dropWhile isBlank = solid at htext hhead
  cases solid with
  | nil =>
    rw [List.append_nil] at htext
    exact .inl (htext ▸ hgap)
  | cons c cs =>
    have hcut : (c :: cs).takeWhile (!isBlank ·) ++ (c :: cs).dropWhile (!isBlank ·) = c :: cs :=
      List.takeWhile_append_dropWhile
    refine .inr ⟨gap, (c :: cs).takeWhile (!isBlank ·), (c :: cs).dropWhile (!isBlank ·), ?_, hgap, ?_, ?_⟩
    · rw [List.append_assoc, hcut, htext]
    · refine ⟨by simp [show isBlank c = false from hhead], fun d hd => ?_⟩
      simpa using List.mem_takeWhile_imp hd
    · intro d hd
      have h := List.head?_dropWhile_not (!isBlank ·) (c :: cs)
      rw [Option.mem_def.mp hd] at h
      simpa using h

/-- The text is these words, each of them behind blanks, with blanks at the end. -/
inductive Spaced : List (List Char) → List Char → Prop
  | blank {gap : List Char} (hgap : Gap gap) : Spaced [] gap
  | word {gap rest : List Char} {ws : List (List Char)} (w : List Char) (hgap : Gap gap)
      (hrest : ∀ c ∈ rest.head?, isBlank c) (h : Spaced ws rest) : Spaced (w :: ws) (gap ++ w ++ rest)

/-- Every text is written with its words. -/
theorem spaced_words (text : List Char) : Spaced (words text) text ∧ ∀ w ∈ words text, IsWord w := by
  obtain ⟨n, hn⟩ : ∃ n, text.length < n := ⟨_, Nat.lt_succ_self _⟩
  induction n generalizing text with
  | zero => exact absurd hn (Nat.not_lt_zero _)
  | succ n ih =>
    rcases gap_or_word text with hgap | ⟨gap, w, rest, rfl, hgap, hw, hrest⟩
    · rw [words_gap hgap]
      exact ⟨.blank hgap, fun w hw => absurd hw List.not_mem_nil⟩
    · have hshorter : rest.length < n := by
        have hpos := List.length_pos_iff.mpr hw.ne_nil
        simp only [List.length_append] at hn
        omega
      obtain ⟨hspaced, hwords⟩ := ih rest hshorter
      rw [List.append_assoc, words_gap_append hgap, words_word_append hw hrest, ← List.append_assoc]
      exact ⟨.word w hgap hrest hspaced, List.forall_mem_cons.mpr ⟨hw, hwords⟩⟩

namespace Spaced

theorem words_eq (h : Spaced ws text) (hws : ∀ w ∈ ws, IsWord w) : words text = ws := by
  induction h with
  | blank hgap => exact words_gap hgap
  | word w hgap hrest _ ih =>
    obtain ⟨hw, hws⟩ := List.forall_mem_cons.mp hws
    rw [List.append_assoc, words_gap_append hgap, words_word_append hw hrest, ih hws]

theorem mem (h : Spaced ws text) (hc : c ∈ text) : isBlank c ∨ ∃ w ∈ ws, c ∈ w := by
  induction h with
  | blank hgap => exact .inl (hgap c hc)
  | word w hgap _ _ ih =>
    rcases List.mem_append.mp hc with hc | hc
    · rcases List.mem_append.mp hc with hc | hc
      · exact .inl (hgap c hc)
      · exact .inr ⟨_, List.mem_cons_self, hc⟩
    · exact (ih hc).imp_right fun ⟨w, hw, hc⟩ => ⟨w, List.mem_cons_of_mem _ hw, hc⟩

theorem gap_append (h : Spaced ws text) (hgap : Gap gap) : Spaced ws (gap ++ text) := by
  cases h with
  | blank hrest => exact .blank (List.forall_mem_append.mpr ⟨hgap, hrest⟩)
  | word w hlead hrest h =>
    rw [← List.append_assoc, ← List.append_assoc]
    exact .word w (List.forall_mem_append.mpr ⟨hgap, hlead⟩) hrest h

end Spaced

/-- Words that are joined by blanks stand apart. -/
theorem spaced_intercalate (hne : gap ≠ []) (hgap : Gap gap) (ws : List (List Char)) :
    Spaced ws (gap.intercalate ws) := by
  have hnil : Gap [] := fun c hc => absurd hc List.not_mem_nil
  induction ws with
  | nil => exact .blank hnil
  | cons w ws ih =>
    cases ws with
    | nil =>
      have hend : ∀ c ∈ ([] : List Char).head?, isBlank c := by simp
      simpa using Spaced.word w hnil hend (.blank hnil)
    | cons v ws =>
      have hrest : ∀ c ∈ (gap ++ gap.intercalate (v :: ws)).head?, isBlank c := by
        intro c hc
        obtain ⟨d, gap, rfl⟩ := List.exists_cons_of_ne_nil hne
        obtain rfl : d = c := Option.some.inj hc
        exact hgap d List.mem_cons_self
      simpa using Spaced.word w hnil hrest (ih.gap_append hgap)

/-- A text has exactly the words that it is written with. -/
theorem words_eq_iff : words text = ws ↔ Spaced ws text ∧ ∀ w ∈ ws, IsWord w :=
  ⟨fun h => h ▸ spaced_words text, fun h => h.1.words_eq h.2⟩

/-- The text is written with these words, with blanks between every two of them. -/
structure HasWords (source : String) (names : List String) : Prop where
  spaced : Spaced (names.map String.toList) source.toList
  isWord : ∀ w ∈ names, IsWord w.toList

theorem hasWords_iff : HasWords source names ↔ (words source.toList).map String.ofList = names := by
  constructor
  · rintro ⟨hspaced, hwords⟩
    rw [hspaced.words_eq (List.forall_mem_map.mpr hwords), List.map_map]
    simp
  · rintro rfl
    obtain ⟨hspaced, hwords⟩ := spaced_words source.toList
    exact ⟨by simpa using hspaced, by simpa using hwords⟩

theorem HasWords.intercalate {gap : String} (hne : gap ≠ "") (hgap : Gap gap.toList)
    (hnames : ∀ w ∈ names, IsWord w.toList) : HasWords (gap.intercalate names) names where
  spaced := by
    rw [String.toList_intercalate]
    exact spaced_intercalate (by simpa using hne) hgap _
  isWord := hnames

/-- Trimming takes off blanks at the two ends, and all of them. -/
theorem trim_spec (text : List Char) :
    ∃ lead tail, text = lead ++ trim text ++ tail ∧ Gap lead ∧ Gap tail ∧ Tight (trim text) := by
  have hlead : Gap (text.takeWhile isBlank) := fun c hc => List.mem_takeWhile_imp hc
  have htext : text.takeWhile isBlank ++ text.dropWhile isBlank = text := List.takeWhile_append_dropWhile
  have hhead := List.head?_dropWhile_not isBlank text
  unfold trim
  generalize text.takeWhile isBlank = lead at hlead htext
  generalize text.dropWhile isBlank = solid at htext hhead ⊢
  have htail : Gap (solid.reverse.takeWhile isBlank).reverse := fun c hc => List.mem_takeWhile_imp (List.mem_reverse.mp hc)
  have hsolid : (solid.reverse.dropWhile isBlank).reverse ++ (solid.reverse.takeWhile isBlank).reverse = solid := by
    rw [← List.reverse_append, List.takeWhile_append_dropWhile, List.reverse_reverse]
  have hlast := List.head?_dropWhile_not isBlank solid.reverse
  generalize (solid.reverse.takeWhile isBlank).reverse = tail at htail hsolid
  generalize solid.reverse.dropWhile isBlank = core at hsolid hlast ⊢
  refine ⟨lead, tail, by rw [List.append_assoc, hsolid, htext], hlead, htail, fun c hc => ?_, fun c hc => ?_⟩
  · rw [← hsolid, List.head?_append, Option.mem_def.mp hc] at hhead
    simpa using hhead
  · rw [List.getLast?_reverse] at hc
    rw [Option.mem_def.mp hc] at hlast
    simpa using hlast

theorem words_trim (text : List Char) : words (trim text) = words text := by
  obtain ⟨lead, tail, htext, hlead, htail, -⟩ := trim_spec text
  calc words (trim text) = words (lead ++ trim text ++ tail) := by rw [words_append_gap htail, words_gap_append hlead]
    _ = words text := by rw [← htext]

namespace Tight

variable (ht : Tight text)

include ht

/-- A text that is not blank at its beginning begins with its first word. -/
theorem eq_append (h : words text = w :: ws) :
    ∃ rest, text = w ++ rest ∧ IsWord w ∧ (∀ c ∈ rest.head?, isBlank c) ∧ words rest = ws := by
  obtain ⟨hspaced, hwords⟩ := words_eq_iff.mp h
  obtain ⟨hw, hws⟩ := List.forall_mem_cons.mp hwords
  cases hspaced with
  | @word gap rest _ _ hgap hrest hspaced =>
    refine ⟨rest, ?_, hw, hrest, hspaced.words_eq hws⟩
    cases gap with
    | nil => rfl
    | cons c gap => exact absurd (hgap c List.mem_cons_self) (ht.head c rfl)

theorem eq_of_words (h : words text = [w]) : text = w := by
  obtain ⟨rest, rfl, -, -, hrest⟩ := ht.eq_append h
  cases (words_eq_iff.mp hrest).1 with
  | blank hgap =>
    rcases List.eq_nil_or_concat rest with rfl | ⟨rest, c, rfl⟩
    · exact List.append_nil w
    · exact absurd (hgap c (by simp)) (ht.last c (by simp))

end Tight

theorem trim_eq_iff (hw : IsWord w) : trim text = w ↔ words text = [w] := by
  rw [← words_trim]
  refine ⟨fun h => by rw [h, words_word hw], ?_⟩
  obtain ⟨-, -, -, -, -, ht⟩ := trim_spec text
  exact ht.eq_of_words

/-- A character that is not blank becomes the last word or makes the last word longer. -/
theorem words_append_solid (hc : ¬ isBlank c) (text : List Char) : words (text ++ [c]) = words text ++ [[c]] ∨
    ∃ ws w, IsWord w ∧ words text = ws ++ [w] ∧ words (text ++ [c]) = ws ++ [w ++ [c]] := by
  have hword : IsWord [c] := ⟨List.cons_ne_nil c [], by simpa using hc⟩
  obtain ⟨h, hws⟩ := spaced_words text
  generalize words text = ws at h hws
  induction h with
  | blank hgap =>
    left
    rw [words_gap_append hgap, words_word hword]
    rfl
  | @word gap rest ws w hgap hrest h ih =>
    obtain ⟨hw, hws⟩ := List.forall_mem_cons.mp hws
    rw [List.append_assoc, List.append_assoc, words_gap_append hgap]
    cases rest with
    | nil =>
      obtain rfl : ws = [] := (h.words_eq hws).symm
      exact .inr ⟨[], w, hw, rfl, words_word (hw.concat hc)⟩
    | cons d rest =>
      have hwords : words (w ++ (d :: rest ++ [c])) = w :: words (d :: rest ++ [c]) := words_word_append hw hrest
      rw [hwords]
      rcases ih hws with hlast | ⟨vs, v, hv, rfl, hlast⟩
      · exact .inl (by rw [hlast, List.cons_append])
      · exact .inr ⟨w :: vs, v, hv, rfl, by rw [hlast, List.cons_append]⟩

/-- A text that is not blank at its end ends as its last word does. -/
theorem exists_getLast?_words (hc : ¬ isBlank c) (text : List Char) :
    ∃ w ∈ (words (text ++ [c])).getLast?, w.getLast? = some c := by
  rcases words_append_solid hc text with h | ⟨ws, w, -, -, h⟩
  · exact ⟨[c], by rw [h, List.getLast?_concat]; rfl, rfl⟩
  · exact ⟨w ++ [c], by rw [h, List.getLast?_concat]; rfl, List.getLast?_concat⟩

end ShiftReduce.Text
