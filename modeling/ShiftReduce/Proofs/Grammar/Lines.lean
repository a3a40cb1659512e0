import Mathlib.Data.List.Forall2
import ShiftReduce.Grammar.Source
import ShiftReduce.Proofs.Grammar.Draft
import ShiftReduce.Proofs.Text.Words

/-!
# The lines of a source

What a line says depends on the words before its comment (`Says`, `classify_eq_ok`), and the lines of a source are
read one by one (`Reads`, `exists_readLines`). A production line belongs to the nearest head above (`productionLines`),
and it makes a rule if there is one (`rulesFrom_eq_ok`).
-/

namespace ShiftReduce

namespace Source

variable {raw text before rest w name : List Char} {ws : List (List Char)} {line : SourceLine} {number : Nat}

/-- The part of a line before its comment. -/
def content (raw : List Char) : List Char :=
  raw.takeWhile (· ≠ '#')

/-- What these words say: nothing, terminals, a head, an empty production, or a production in which no word is taken for
something else. -/
inductive Says : List (List Char) → SourceLine → Prop
  | blank : Says [] .blank
  | tokens (names : List (List Char)) : Says (tokenWord :: names) (.tokens (namesOf names))
  | head {name : List Char} (hname : isIdentifier name) : Says [name ++ [':']] (.head (String.ofList name))
  | parted {name : List Char} (hname : isIdentifier name) : Says [name, [':']] (.head (String.ofList name))
  | empty : Says [emptyWord] (.body [])
  | body {names : List (List Char)} (hsome : names ≠ []) (htoken : names.head? ≠ some tokenWord)
      (hcolon : ∀ last ∈ names.getLast?, last.getLast? ≠ some ':') (hempty : emptyWord ∉ names) :
      Says names (.body (namesOf names))

/-- What a line says, by the words before its comment. -/
def Reads (raw : List Char) (line : SourceLine) : Prop :=
  Says (Text.words (content raw)) line

theorem not_isBlank_of_identifier {c : Char} (h : opensIdentifier c || c.isDigit) : ¬ Text.isBlank c := by
  -- letters, digits and the underscore lie between the blanks 0x20 and 0x85
  have hcode : 48 ≤ c.toNat ∧ c.toNat ≤ 122 := by
    change ((('A'.val ≤ c.val ∧ c.val ≤ 'Z'.val || ('a'.val ≤ c.val && c.val ≤ 'z'.val)) || c == '_') ||
      ('0'.val ≤ c.val && c.val ≤ '9'.val)) = true at h
    simp only [Bool.or_eq_true, Bool.and_eq_true, decide_eq_true_eq, beq_iff_eq, UInt32.le_iff_toNat_le] at h
    rcases h with (h | rfl) | h
    · simp at h
      omega
    · decide
    · simp at h
      omega
  simp only [Text.isBlank, Text.blankRanges, List.any_cons, List.any_nil, Bool.or_eq_true, Bool.and_eq_true,
    decide_eq_true_eq, Bool.false_eq_true, or_false]
  omega

theorem forall_of_isIdentifier (h : isIdentifier name) : ∀ c ∈ name, opensIdentifier c || c.isDigit := by
  cases name with
  | nil => cases h
  | cons c cs =>
    simp only [isIdentifier, Bool.and_eq_true, List.all_eq_true] at h
    exact List.forall_mem_cons.mpr ⟨by rw [h.1, Bool.true_or], h.2⟩

theorem isWord_of_isIdentifier (h : isIdentifier name) : Text.IsWord name where
  ne_nil := by
    rintro rfl
    cases h
  solid c hc := not_isBlank_of_identifier (forall_of_isIdentifier h c hc)

theorem isWord_tokenWord : Text.IsWord tokenWord :=
  .of_all (by decide) (by decide)

theorem says_nil : Says [] line ↔ line = .blank := by
  constructor
  · intro h
    cases h with
    | blank => rfl
    | body hsome => exact absurd rfl hsome
  · rintro rfl
    exact .blank

theorem says_tokens : Says (tokenWord :: ws) line ↔ line = .tokens (namesOf ws) := by
  constructor
  · intro h
    generalize hall : tokenWord :: ws = all at h
    cases h with
    | blank => cases hall
    | tokens names =>
      obtain ⟨-, rfl⟩ := List.cons_eq_cons.mp hall
      rfl
    | @head name hname =>
      have hlast : tokenWord.getLast? = some ':' := by rw [(List.cons_eq_cons.mp hall).1, List.getLast?_concat]
      exact absurd hlast (by decide)
    | @parted name hname =>
      obtain ⟨rfl, -⟩ := List.cons_eq_cons.mp hall
      exact absurd hname (by decide)
    | empty => exact absurd (List.cons_eq_cons.mp hall).1 (by decide)
    | body _ htoken => exact absurd (by rw [← hall]; rfl) htoken
  · rintro rfl
    exact .tokens ws

/-- A line with a colon at its end is a head or says nothing. -/
theorem says_colon (htoken : ws.head? ≠ some tokenWord) (hcolon : ∃ last ∈ ws.getLast?, last.getLast? = some ':') :
    Says ws line ↔
      ∃ name, isIdentifier name ∧ (ws = [name ++ [':']] ∨ ws = [name, [':']]) ∧ line = .head (String.ofList name) := by
  obtain ⟨last, hlast, hcolon⟩ := hcolon
  constructor
  · intro h
    cases h with
    | blank => cases hlast
    | tokens names => exact absurd rfl htoken
    | @head name hname => exact ⟨name, hname, .inl rfl, rfl⟩
    | @parted name hname => exact ⟨name, hname, .inr rfl, rfl⟩
    | empty =>
      obtain rfl := Option.some.inj hlast
      exact absurd hcolon (by decide)
    | body _ _ hother => exact absurd hcolon (hother last hlast)
  · rintro ⟨name, hname, rfl | rfl, rfl⟩
    · exact .head hname
    · exact .parted hname

/-- A line of symbols is a production line, or the sign for an empty production stands beside others. -/
theorem says_body (hsome : ws ≠ []) (htoken : ws.head? ≠ some tokenWord)
    (hcolon : ∀ last ∈ ws.getLast?, last.getLast? ≠ some ':') : Says ws line ↔ bodyLine number ws = .ok line := by
  unfold bodyLine
  constructor
  · intro h
    cases h with
    | blank => exact absurd rfl hsome
    | tokens names => exact absurd rfl htoken
    | head => exact absurd (by simp) (hcolon _ rfl)
    | parted => exact absurd rfl (hcolon _ rfl)
    | empty => rfl
    | body _ _ _ hempty => simp [hempty]
  · intro h
    split at h
    · next hempty =>
      split at h
      · next hone =>
        obtain ⟨w, rfl⟩ := List.length_eq_one_iff.mp hone
        obtain rfl : emptyWord = w := by simpa using hempty
        obtain rfl := Except.ok.inj h
        exact .empty
      · cases h
    · next hempty =>
      obtain rfl := Except.ok.inj h
      exact .body hsome htoken hcolon (by simpa using hempty)

theorem afterTokenWord?_eq_some :
    afterTokenWord? text = some rest ↔ text = tokenWord ++ rest ∧ ∀ c ∈ rest.head?, Text.isBlank c := by
  unfold afterTokenWord?
  constructor
  · intro h
    split at h
    · next hprefix =>
      obtain ⟨tail, rfl⟩ := List.isPrefixOf_iff_prefix.mp hprefix
      rw [List.drop_left] at h
      dsimp only at h
      split at h
      · next hblank =>
        obtain rfl := Option.some.inj h
        exact ⟨rfl, (Option.all_eq_true _ _).mp hblank⟩
      · cases h
    · cases h
  · rintro ⟨rfl, hblank⟩
    rw [if_pos (List.isPrefixOf_iff_prefix.mpr (List.prefix_append _ _)), List.drop_left]
    exact if_pos ((Option.all_eq_true _ _).mpr hblank)

theorem beforeColon?_eq_some : beforeColon? text = some before ↔ text = before ++ [':'] := by
  unfold beforeColon?
  constructor
  · intro h
    split at h
    · next hlast =>
      obtain ⟨before, rfl⟩ := List.getLast?_eq_some_iff.mp hlast
      rw [← Option.some.inj h, List.dropLast_concat]
    · cases h
  · rintro rfl
    rw [List.getLast?_concat, if_pos rfl, List.dropLast_concat]

/-- The name before a final colon is the only word there, whether blanks stand between the two or not. -/
theorem trim_eq_iff_words (hname : Text.IsWord name) : Text.trim before = name ↔
    Text.words (before ++ [':']) = [name ++ [':']] ∨ Text.words (before ++ [':']) = [name, [':']] := by
  rw [Text.trim_eq_iff hname]
  have hcolon : ¬ Text.isBlank ':' := by decide
  rcases Text.words_append_solid hcolon before with h | ⟨ws, w, hw, hbefore, h⟩
  · rw [h]
    constructor
    · intro hwords
      exact .inr (by rw [hwords]; rfl)
    · rintro (hwords | hwords)
      · obtain ⟨-, hlast⟩ : Text.words before = [] ∧ [':'] = name ++ [':'] := List.append_singleton_inj.mp hwords
        obtain ⟨hnil, -⟩ : [] = name ∧ ':' = ':' := List.append_singleton_inj.mp hlast
        exact absurd hnil.symm hname.ne_nil
      · obtain ⟨hbefore, -⟩ : Text.words before = [name] ∧ [':'] = [':'] := List.append_singleton_inj.mp hwords
        exact hbefore
  · rw [hbefore, h]
    constructor
    · intro hwords
      obtain ⟨rfl, rfl⟩ : ws = [] ∧ w = name := List.append_singleton_inj.mp hwords
      exact .inl rfl
    · rintro (hwords | hwords)
      · obtain ⟨rfl, hlast⟩ : ws = [] ∧ w ++ [':'] = name ++ [':'] := List.append_singleton_inj.mp hwords
        rw [(List.append_singleton_inj.mp hlast).1]
        rfl
      · obtain ⟨-, hlast⟩ : ws = [name] ∧ w ++ [':'] = [':'] := List.append_singleton_inj.mp hwords
        obtain ⟨hnil, -⟩ : w = [] ∧ ':' = ':' := List.append_singleton_inj.mp hlast
        exact absurd hnil hw.ne_nil

theorem says_before_colon (htoken : (Text.words (before ++ [':'])).head? ≠ some tokenWord) :
    Says (Text.words (before ++ [':'])) line ↔
      isIdentifier (Text.trim before) ∧ line = .head (String.ofList (Text.trim before)) := by
  rw [says_colon htoken (Text.exists_getLast?_words (by decide) before)]
  constructor
  · rintro ⟨name, hname, hwords, rfl⟩
    obtain rfl := (trim_eq_iff_words (isWord_of_isIdentifier hname)).mpr hwords
    exact ⟨hname, rfl⟩
  · rintro ⟨hname, rfl⟩
    exact ⟨_, hname, (trim_eq_iff_words (isWord_of_isIdentifier hname)).mp rfl, rfl⟩

theorem afterTokenWord?_eq_none (h : (Text.words text).head? ≠ some tokenWord) : afterTokenWord? text = none := by
  cases hafter : afterTokenWord? text with
  | none => rfl
  | some rest =>
    obtain ⟨rfl, hrest⟩ := afterTokenWord?_eq_some.mp hafter
    rw [Text.words_word_append isWord_tokenWord hrest] at h
    exact absurd rfl h

/-- What a line is taken for depends on the words before its comment alone. -/
theorem classify_eq_ok : classify number raw = .ok line ↔ Reads raw line := by
  obtain ⟨-, -, -, -, -, ht⟩ := Text.trim_spec (content raw)
  rw [Reads, ← Text.words_trim]
  unfold classify
  rw [← content]
  generalize Text.trim (content raw) = text at ht ⊢
  dsimp only
  rcases List.eq_nil_or_concat text with rfl | ⟨before, c, rfl⟩
  · rw [Text.words_nil, says_nil]
    simp [eq_comm]
  rw [List.concat_eq_append] at ht ⊢
  have hc : ¬ Text.isBlank c := ht.last c (by simp)
  rw [if_neg (by simp)]
  by_cases htoken : (Text.words (before ++ [c])).head? = some tokenWord
  · obtain ⟨ws, hwords⟩ := List.head?_eq_some_iff.mp htoken
    obtain ⟨rest, hrest, -, hblank, hws⟩ := ht.eq_append hwords
    rw [afterTokenWord?_eq_some.mpr ⟨hrest, hblank⟩, hwords, says_tokens]
    simp [hws, eq_comm]
  rw [afterTokenWord?_eq_none htoken]
  dsimp only
  by_cases hcolon : c = ':'
  · subst hcolon
    rw [beforeColon?_eq_some.mpr rfl, says_before_colon htoken]
    by_cases hname : isIdentifier (Text.trim before)
    · simp [hname, eq_comm]
    · simp [hname]
  · obtain ⟨last, hlast, hend⟩ := Text.exists_getLast?_words hc before
    have hnone : beforeColon? (before ++ [c]) = none := by
      rw [beforeColon?, List.getLast?_concat, if_neg (by simpa using hcolon)]
    have hsome : Text.words (before ++ [c]) ≠ [] := by
      intro hwords
      rw [hwords] at hlast
      cases hlast
    rw [hnone]
    refine (says_body hsome htoken fun w hw => ?_).symm
    obtain rfl : last = w := Option.some.inj (hlast.symm.trans hw)
    rw [hend]
    simpa using hcolon

theorem exists_classifyFrom {raws : List (List Char)} {lines : List SourceLine} :
    (∃ numbered, classifyFrom number raws = .ok numbered ∧ numbered.map Prod.snd = lines) ↔
      List.Forall₂ Reads raws lines := by
  induction raws generalizing number lines with
  | nil => simp [classifyFrom, eq_comm]
  | cons raw raws ih =>
    rw [List.forall₂_cons_left_iff]
    simp only [classifyFrom, bind_eq_ok, pure, Except.pure, Except.ok.injEq, classify_eq_ok]
    constructor
    · rintro ⟨_, ⟨line, hline, numbered, hnumbered, rfl⟩, rfl⟩
      exact ⟨line, numbered.map Prod.snd, hline, ih.mp ⟨numbered, hnumbered, rfl⟩, rfl⟩
    · rintro ⟨line, lines, hline, hlines, rfl⟩
      obtain ⟨numbered, hnumbered, rfl⟩ := ih.mpr hlines
      exact ⟨(number, line) :: numbered, ⟨line, hline, numbered, hnumbered, rfl⟩, rfl⟩

theorem exists_readLines {source : String} {lines : List SourceLine} :
    (∃ numbered, readLines source = .ok numbered ∧ numbered.map Prod.snd = lines) ↔
      List.Forall₂ Reads (Text.lines source.toList) lines :=
  exists_classifyFrom

end Source

namespace SourceLine

def terminals : SourceLine → List String
  | tokens names => names
  | _ => []

def head? : SourceLine → Option String
  | head name => some name
  | _ => none

end SourceLine

theorem Source.Reads.isIdentifier {raw : List Char} {line : SourceLine} {name : String} (h : Reads raw line)
    (hname : name ∈ line.head?) : isIdentifier name.toList := by
  unfold Reads at h
  generalize Text.words (content raw) = ws at h
  have hspelt {letters : List Char} (hident : Source.isIdentifier letters) (heq : String.ofList letters = name) :
      Source.isIdentifier name.toList := by
    rw [← heq, String.toList_ofList]
    exact hident
  cases h with
  | blank => cases hname
  | tokens => cases hname
  | head hident => exact hspelt hident (Option.some.inj hname)
  | parted hident => exact hspelt hident (Option.some.inj hname)
  | empty => cases hname
  | body => cases hname

/-- The rule as a production line under its head. -/
def Rule.line (r : Rule) : Option String × List String :=
  (some r.head, r.body)

theorem Rule.line_eq {r : Rule} {head : String} {names : List String} :
    r.line = (some head, names) ↔ r = ⟨head, names⟩ := by
  cases r
  simp [line]

namespace Source

variable {lines : List SourceLine} {numbered : List (Nat × SourceLine)} {above head : Option String}
  {names : List String} {rules : List Rule}

/-- The terminals that the lines declare, in order. -/
def declaredIn (lines : List SourceLine) : List String :=
  lines.flatMap SourceLine.terminals

/-- The names on the head lines, in order. -/
def headsIn (lines : List SourceLine) : List String :=
  lines.filterMap SourceLine.head?

theorem headsIn_cons (line : SourceLine) (lines : List SourceLine) :
    headsIn (line :: lines) = line.head?.toList ++ headsIn lines := by
  cases line <;> rfl

theorem terminalNames_eq (numbered : List (Nat × SourceLine)) :
    terminalNames numbered = declaredIn (numbered.map Prod.snd) := by
  rw [declaredIn, List.flatMap_map]
  rfl

theorem headNames_eq (numbered : List (Nat × SourceLine)) : headNames numbered = headsIn (numbered.map Prod.snd) := by
  rw [headsIn, List.filterMap_map]
  rfl

/-- The production lines in order, each with the nearest head above; `above` is the head above the first line. -/
def productionLines (above : Option String) : List SourceLine → List (Option String × List String)
  | [] => []
  | .blank :: lines | .tokens _ :: lines => productionLines above lines
  | .head name :: lines => productionLines (some name) lines
  | .body names :: lines => (above, names) :: productionLines above lines

theorem rulesFrom_eq_ok :
    rulesFrom above numbered = .ok rules ↔ productionLines above (numbered.map Prod.snd) = rules.map Rule.line := by
  induction numbered generalizing above rules with
  | nil => simp [rulesFrom, productionLines, eq_comm]
  | cons line numbered ih =>
    obtain ⟨number, line⟩ := line
    cases line with
    | blank => exact ih
    | tokens names => exact ih
    | head name => exact ih
    | body names =>
      rw [List.map_cons, productionLines]
      cases above with
      | none =>
        simp only [rulesFrom, reduceCtorEq, false_iff]
        intro h
        cases rules with
        | nil => cases h
        | cons r rules => cases h
      | some head =>
        simp only [rulesFrom, bind_eq_ok, pure, Except.pure, Except.ok.injEq, ih]
        constructor
        · rintro ⟨rules, hrules, rfl⟩
          rw [hrules]
          rfl
        · intro h
          cases rules with
          | nil => cases h
          | cons r rules =>
            obtain ⟨hr, hrules⟩ := List.cons_eq_cons.mp h
            obtain rfl := Rule.line_eq.mp hr.symm
            exact ⟨rules, hrules, rfl⟩

/-- A production line of these names stands among the lines, and this is the nearest head above it. -/
def Stands (lines : List SourceLine) (head : Option String) (names : List String) : Prop :=
  ∃ before after, lines = before ++ .body names :: after ∧ (headsIn before).getLast? = head

theorem exists_split_cons {P : List SourceLine → Prop} {x : SourceLine} :
    (∃ before after, line :: lines = before ++ x :: after ∧ P before) ↔
      (line = x ∧ P []) ∨ ∃ before after, lines = before ++ x :: after ∧ P (line :: before) := by
  constructor
  · rintro ⟨before, after, h, hP⟩
    cases before with
    | nil => exact .inl ⟨(List.cons_eq_cons.mp h).1, hP⟩
    | cons other before =>
      obtain ⟨rfl, hlines⟩ := List.cons_eq_cons.mp h
      exact .inr ⟨before, after, hlines, hP⟩
  · rintro (⟨rfl, hP⟩ | ⟨before, after, rfl, hP⟩)
    · exact ⟨[], lines, rfl, hP⟩
    · exact ⟨line :: before, after, rfl, hP⟩

theorem mem_productionLines_above : (head, names) ∈ productionLines above lines ↔
    ∃ before after, lines = before ++ .body names :: after ∧ (above.toList ++ headsIn before).getLast? = head := by
  induction lines generalizing above with
  | nil => simp [productionLines]
  | cons line lines ih =>
    rw [exists_split_cons]
    cases line with
    | blank => simpa [productionLines, headsIn_cons, SourceLine.head?] using ih
    | tokens => simpa [productionLines, headsIn_cons, SourceLine.head?] using ih
    | head name =>
      have hnearest (before : List SourceLine) : (above.toList ++ headsIn (.head name :: before)).getLast? =
          ((some name).toList ++ headsIn before).getLast? :=
        List.getLast?_append_of_ne_nil _ (List.cons_ne_nil name _)
      simp only [productionLines, ih, hnearest, reduceCtorEq, false_and, false_or]
    | body others =>
      have hnearest : (above.toList ++ headsIn []).getLast? = above := by cases above <;> rfl
      have hsame (before : List SourceLine) : headsIn (.body others :: before) = headsIn before := rfl
      simp only [productionLines, List.mem_cons, ih, hnearest, hsame, Prod.mk.injEq, SourceLine.body.injEq,
        and_comm, eq_comm (a := head), eq_comm (a := names)]

theorem mem_productionLines : (head, names) ∈ productionLines none lines ↔ Stands lines head names :=
  mem_productionLines_above

end Source

end ShiftReduce
