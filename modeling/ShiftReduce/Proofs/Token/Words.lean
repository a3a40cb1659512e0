import ShiftReduce.Token.Words
import ShiftReduce.Proofs.Grammar.Derivation
import ShiftReduce.Proofs.Grammar.Draft
import ShiftReduce.Proofs.Text.Words
import ShiftReduce.Proofs.Token.Stream

/-!
# Texts as tokens

A word stands for the terminal of its name, if there is one and it is not the end terminal (`token?_eq_some`). So a text
is scanned if all its words are such names, and its tokens are its words (`scan_eq_ok`); otherwise the first word that is
none is told, with its place (`scan_eq_error`). `scan_exact` says both at once, and that joined names are scanned back.
-/

namespace ShiftReduce.Vocabulary

/-- The token is that of a terminal other than the end terminal, and its text is the name of the terminal. -/
structure HasToken (v : Vocabulary) (t : Token) : Prop where
  isTerminal : v.isTerminal t.symbol
  ne_endId : t.symbol ≠ endId
  name : v.name t.symbol = t.text

variable {v : Vocabulary} {text word : String} {words : List String} {t : Token} {ts : List Token} {e : UnknownWord}
  {position : Nat} {s : TokenStream} {xs : List Nat}

theorem mem_terminals_iff_hasToken : word ∈ v.terminals ↔ ∃ t, v.HasToken t ∧ t.text = word := by
  rw [mem_terminals_iff]
  constructor
  · rintro ⟨x, hx, hne, rfl⟩
    exact ⟨⟨x, v.name x⟩, ⟨hx, hne, rfl⟩, rfl⟩
  · rintro ⟨t, ht, rfl⟩
    exact ⟨t.symbol, ht.isTerminal, ht.ne_endId, ht.name⟩

theorem token?_eq_some : v.token? word = some t ↔ v.HasToken t ∧ t.text = word := by
  unfold token?
  constructor
  · intro h
    split at h
    · next x hlookup =>
      obtain ⟨-, hname⟩ := lookup?_eq_some.mp hlookup
      split at h
      · next hx =>
        obtain rfl := Option.some.inj h
        rw [Bool.and_eq_true, decide_eq_true_eq] at hx
        exact ⟨⟨hx.2, hx.1, hname⟩, rfl⟩
      · cases h
    · cases h
  · rintro ⟨ht, rfl⟩
    rw [lookup?_eq_some.mpr ⟨v.lt_size_of_isTerminal ht.isTerminal, ht.name⟩]
    simp [ht.ne_endId, ht.isTerminal]

theorem token?_eq_none : v.token? word = none ↔ word ∉ v.terminals := by
  rw [mem_terminals_iff_hasToken, Option.eq_none_iff_forall_ne_some]
  simp only [ne_eq, token?_eq_some, not_exists]

theorem tokensFrom_cons_eq_ok : v.tokensFrom position (word :: words) = .ok ts ↔
    ∃ t us, v.token? word = some t ∧ v.tokensFrom (position + 1) words = .ok us ∧ t :: us = ts := by
  rw [tokensFrom]
  cases v.token? word with
  | none => simp
  | some t => cases v.tokensFrom (position + 1) words <;> simp [Except.map]

theorem tokensFrom_cons_eq_error : v.tokensFrom position (word :: words) = .error e ↔
    word ∉ v.terminals ∧ ⟨word, position⟩ = e ∨
      word ∈ v.terminals ∧ v.tokensFrom (position + 1) words = .error e := by
  rw [tokensFrom, ← token?_eq_none]
  cases htoken : v.token? word with
  | none => simp [token?_eq_none.mp htoken]
  | some t =>
    have hword : word ∈ v.terminals := mem_terminals_iff_hasToken.mpr ⟨t, token?_eq_some.mp htoken⟩
    cases v.tokensFrom (position + 1) words <;> simp [Except.map, hword]

theorem tokensFrom_eq_ok : v.tokensFrom position words = .ok ts ↔ (∀ t ∈ ts, v.HasToken t) ∧ ts.map (·.text) = words := by
  induction words generalizing position ts with
  | nil => cases ts <;> simp [tokensFrom]
  | cons word words ih =>
    simp only [tokensFrom_cons_eq_ok, token?_eq_some, ih]
    constructor
    · rintro ⟨t, us, ⟨ht, rfl⟩, ⟨hus, rfl⟩, rfl⟩
      exact ⟨List.forall_mem_cons.mpr ⟨ht, hus⟩, rfl⟩
    · rintro ⟨hts, hmap⟩
      obtain ⟨t, us, rfl, htext, hus⟩ := List.map_eq_cons_iff.mp hmap
      obtain ⟨ht, hrest⟩ := List.forall_mem_cons.mp hts
      exact ⟨t, us, ⟨ht, htext⟩, ⟨hrest, hus⟩, rfl⟩

theorem tokensFrom_eq_error : v.tokensFrom position words = .error e ↔
    ∃ before behind, words = before ++ e.word :: behind ∧ e.position = position + before.length ∧
      (∀ w ∈ before, w ∈ v.terminals) ∧ e.word ∉ v.terminals := by
  induction words generalizing position with
  | nil => simp [tokensFrom]
  | cons word words ih =>
    rw [tokensFrom_cons_eq_error, ih]
    constructor
    · rintro (⟨hword, rfl⟩ | ⟨hword, before, behind, rfl, hposition, hbefore, hunknown⟩)
      · exact ⟨[], words, rfl, rfl, fun w hw => absurd hw List.not_mem_nil, hword⟩
      · refine ⟨word :: before, behind, rfl, ?_, List.forall_mem_cons.mpr ⟨hword, hbefore⟩, hunknown⟩
        rw [hposition, List.length_cons]
        omega
    · rintro ⟨before, behind, hwords, hposition, hbefore, hunknown⟩
      obtain ⟨found, place⟩ := e
      cases before with
      | nil =>
        obtain ⟨rfl, rfl⟩ := List.cons_eq_cons.mp hwords
        obtain rfl : place = position := hposition
        exact .inl ⟨hunknown, rfl⟩
      | cons w before =>
        obtain ⟨rfl, rfl⟩ := List.cons_eq_cons.mp hwords
        obtain ⟨hword, hbefore⟩ := List.forall_mem_cons.mp hbefore
        refine .inr ⟨hword, before, behind, rfl, ?_, hbefore, hunknown⟩
        rw [hposition, List.length_cons]
        omega

/-- No word stands for the end token, so none is left out at the end. -/
theorem ofTokens_eq_of_hasToken (h : ∀ t ∈ ts, v.HasToken t) : TokenStream.ofTokens ts = ⟨ts⟩ :=
  TokenStream.ofTokens_eq fun t ht => by simpa [Token.isEnd] using (h t ht).ne_endId

/-- The tokens of a text are its words. -/
theorem scan_eq_ok : v.scan text = .ok s ↔
    (∀ t ∈ s.pending, v.HasToken t) ∧ Text.HasWords text (s.pending.map (·.text)) := by
  have hmap : v.scan text = .ok s ↔ ∃ ts, v.tokensFrom 0 ((Text.words text.toList).map String.ofList) = .ok ts ∧
      TokenStream.ofTokens ts = s := by
    rw [scan]
    cases v.tokensFrom 0 ((Text.words text.toList).map String.ofList) <;> simp [Except.map]
  simp only [hmap, tokensFrom_eq_ok, Text.hasWords_iff]
  constructor
  · rintro ⟨ts, ⟨hts, hwords⟩, rfl⟩
    rw [ofTokens_eq_of_hasToken hts]
    exact ⟨hts, hwords.symm⟩
  · rintro ⟨hts, hwords⟩
    exact ⟨s.pending, ⟨hts, hwords.symm⟩, ofTokens_eq_of_hasToken hts⟩

/-- The first word that is not the name of a terminal is found. -/
theorem scan_eq_error : v.scan text = .error e ↔
    ∃ before behind, Text.HasWords text (before ++ e.word :: behind) ∧ e.position = before.length ∧
      (∀ w ∈ before, w ∈ v.terminals) ∧ e.word ∉ v.terminals := by
  have hmap : v.scan text = .error e ↔ v.tokensFrom 0 ((Text.words text.toList).map String.ofList) = .error e := by
    rw [scan]
    cases v.tokensFrom 0 ((Text.words text.toList).map String.ofList) <;> simp [Except.map]
  simp only [hmap, tokensFrom_eq_error, Text.hasWords_iff, Nat.zero_add]

theorem exists_scan_iff (h : Text.HasWords text words) : (∃ s, v.scan text = .ok s) ↔ ∀ w ∈ words, w ∈ v.terminals := by
  simp only [scan_eq_ok, mem_terminals_iff_hasToken]
  constructor
  · rintro ⟨s, hs, hwords⟩ w hw
    rw [← Text.hasWords_iff.mp h, Text.hasWords_iff.mp hwords] at hw
    obtain ⟨t, ht, rfl⟩ := List.mem_map.mp hw
    exact ⟨t, hs t ht, rfl⟩
  · intro hknown
    obtain ⟨ts, hts, rfl⟩ := exists_map_eq hknown
    exact ⟨⟨ts⟩, hts, h⟩

/-- The text is scanned, and its stream hands out these terminals, each with its name. -/
def ScansAs (v : Vocabulary) (text : String) (xs : List Nat) : Prop :=
  ∃ s, v.scan text = .ok s ∧ s.HandsOut (xs.map fun x => ⟨x, v.name x⟩)

theorem scansAs_of_hasWords (hxs : ∀ x ∈ xs, v.isTerminal x ∧ x ≠ endId) (h : Text.HasWords text (xs.map v.name)) :
    v.ScansAs text xs := by
  refine ⟨⟨xs.map fun x => ⟨x, v.name x⟩⟩, scan_eq_ok.mpr ⟨?_, ?_⟩, TokenStream.handsOut_pending _⟩
  · exact List.forall_mem_map.mpr fun x hx => ⟨(hxs x hx).1, (hxs x hx).2, rfl⟩
  · rwa [List.map_map]

/-- A text has its words, one list of them. It is scanned exactly if each of them is the name of a terminal other than
the end terminal; the stream then hands out the words, each as the terminal that has this name, and after them the end
token for ever. Otherwise the error tells the first word that is no such name, and how many words come before it. So a
list of terminals with words as names comes back from every text that has these words, such as their names joined by
blanks. -/
theorem scan_exact (v : Vocabulary) :
    (∀ text : String, ∃ words : List String, (∀ ws, Text.HasWords text ws ↔ words = ws) ∧
      ((∃ s, v.scan text = .ok s) ↔ ∀ w ∈ words, w ∈ v.terminals) ∧
      (∀ s, v.scan text = .ok s →
        ∃ ts : List Token, ts.map (·.text) = words ∧ (∀ t ∈ ts, v.HasToken t) ∧ s.HandsOut ts) ∧
      ∀ e, v.scan text = .error e ↔ ∃ before behind, words = before ++ e.word :: behind ∧ e.position = before.length ∧
        (∀ w ∈ before, w ∈ v.terminals) ∧ e.word ∉ v.terminals) ∧
    ∀ xs : List Nat, (∀ x ∈ xs, v.isTerminal x ∧ x ≠ endId) →
      (∀ text, Text.HasWords text (xs.map v.name) → v.ScansAs text xs) ∧
      ((∀ x ∈ xs, Text.IsWord (v.name x).toList) →
        ∀ gap : String, gap ≠ "" → Text.Gap gap.toList → v.ScansAs (gap.intercalate (xs.map v.name)) xs) := by
  refine ⟨fun text => ?words, fun xs hxs => ⟨fun text htext => scansAs_of_hasWords hxs htext, ?joined⟩⟩
  case words =>
    refine ⟨(Text.words text.toList).map String.ofList, fun ws => Text.hasWords_iff, ?_, fun s hs => ?_, fun e => ?_⟩
    · exact exists_scan_iff (Text.hasWords_iff.mpr rfl)
    · obtain ⟨hts, hwords⟩ := scan_eq_ok.mp hs
      exact ⟨s.pending, (Text.hasWords_iff.mp hwords).symm, hts, s.handsOut_pending⟩
    · simp only [scan_eq_error, Text.hasWords_iff]
  case joined =>
    intro hnames gap hne hgap
    exact scansAs_of_hasWords hxs (.intercalate hne hgap (List.forall_mem_map.mpr hnames))

/-- Blanks stand before the words and behind them, and the first of two words that are no terminals is told. -/
theorem scan_exact_nested : Text.HasWords "\ta  b\na " ["a", "b", "a"] ∧
    Grammar.nested.symbols.ScansAs "\ta  b\na " [1, 2, 1] ∧
    Grammar.nested.symbols.scan "a b S $end" = .error ⟨"S", 2⟩ ∧
    (∀ x ∈ [2, 1], Grammar.nested.symbols.isTerminal x ∧ x ≠ endId) ∧
    (∀ x ∈ [2, 1], Text.IsWord (Grammar.nested.symbols.name x).toList) ∧ Text.Gap " \n".toList ∧
    Grammar.nested.symbols.ScansAs "b \na" [2, 1] := by
  obtain ⟨hscan, hback⟩ := scan_exact Grammar.nested.symbols
  have hwords : Text.HasWords "\ta  b\na " ["a", "b", "a"] := Text.hasWords_iff.mpr (by decide)
  have hterminals : ∀ x ∈ [2, 1], Grammar.nested.symbols.isTerminal x ∧ x ≠ endId := by decide
  have hnames : ∀ x ∈ [2, 1], Text.IsWord (Grammar.nested.symbols.name x).toList :=
    List.forall_mem_cons.mpr ⟨.of_all (by decide) (by decide), List.forall_mem_singleton.mpr
      (.of_all (by decide) (by decide))⟩
  have hgap : Text.Gap " \n".toList := List.all_eq_true.mp (by decide)
  refine ⟨hwords, (hback [1, 2, 1] (by decide)).1 _ hwords, ?_, hterminals, hnames, hgap,
    (hback [2, 1] hterminals).2 hnames " \n" (by decide) hgap⟩
  obtain ⟨words, hiff, -, -, herror⟩ := hscan "a b S $end"
  obtain rfl : words = ["a", "b", "S", "$end"] := (hiff _).mp (Text.hasWords_iff.mpr (by decide))
  exact (herror ⟨"S", 2⟩).mpr ⟨["a", "b"], ["$end"], rfl, rfl, by decide, by decide⟩

end ShiftReduce.Vocabulary
