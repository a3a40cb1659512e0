import ShiftReduce.Proofs.Grammar.Source

/-!
# Sources that list a grammar

A grammar with names that cannot be taken for anything else (`Grammar.Writable`) can be written down: terminals, first
heads and production lines in the order of their ids (`Source.Lists`), in lines with any blanks and comments
(`Source.Written`). `Source.load_of_written`: such a source loads as the grammar that it lists.
-/

namespace ShiftReduce

/-- The names on a line. -/
def SourceLine.names : SourceLine → List String
  | blank => []
  | tokens names | body names => names
  | head name => [name]

namespace Source

variable {raw text comment name : List Char} {ws : List (List Char)} {line : SourceLine} {raws : List (List Char)}
  {lines : List SourceLine} {source : String} {g : Grammar}

/-- A name that is read as a name wherever it stands. -/
structure Plain (name : List Char) : Prop where
  word : Text.IsWord name
  no_comment : '#' ∉ name
  no_colon : name.getLast? ≠ some ':'
  ne_tokenWord : name ≠ tokenWord
  ne_emptyWord : name ≠ emptyWord

theorem Plain.of_isIdentifier (h : isIdentifier name) : Plain name where
  word := isWord_of_isIdentifier h
  no_comment hmem := absurd (forall_of_isIdentifier h _ hmem) (by decide)
  no_colon hlast := absurd (forall_of_isIdentifier h _ (List.mem_of_getLast? hlast)) (by decide)
  ne_tokenWord := by
    rintro rfl
    exact absurd h (by decide)
  ne_emptyWord := by
    rintro rfl
    exact absurd h (by decide)

/-- These words say what the line says. -/
inductive Spells : List (List Char) → SourceLine → Prop
  | blank : Spells [] .blank
  | tokens (names : List String) : Spells (tokenWord :: names.map String.toList) (.tokens names)
  | head (name : String) : Spells [name.toList ++ [':']] (.head name)
  | parted (name : String) : Spells [name.toList, [':']] (.head name)
  | empty : Spells [emptyWord] (.body [])
  | body {names : List String} (hsome : names ≠ []) : Spells (names.map String.toList) (.body names)

/-- The line is written in words that say it, with blanks before, between and behind them and a comment at the end, if
there is one. -/
def Written (raw : List Char) (line : SourceLine) : Prop :=
  ∃ ws text comment, Spells ws line ∧ Text.Spaced ws text ∧ raw = text ++ comment ∧
    (comment = [] ∨ comment.head? = some '#')

theorem Written.of_words (hspells : Spells ws line) (hwords : Text.words raw = ws) : Written raw line :=
  ⟨ws, raw, [], hspells, (Text.words_eq_iff.mp hwords).1, (List.append_nil raw).symm, .inl rfl⟩

/-- The names on the line are read as names, and a head is an identifier. -/
structure Legible (line : SourceLine) : Prop where
  plain : ∀ name ∈ line.names, Plain name.toList
  head : ∀ name ∈ line.head?, isIdentifier name.toList

/-- The words of a line are words indeed, and no comment begins in them. -/
theorem Spells.forall_words (h : Spells ws line) (hplain : ∀ name ∈ line.names, Plain name.toList) :
    ∀ w ∈ ws, Text.IsWord w ∧ '#' ∉ w := by
  have hnames : ∀ w ∈ line.names.map String.toList, Text.IsWord w ∧ '#' ∉ w :=
    List.forall_mem_map.mpr fun name hname => ⟨(hplain name hname).word, (hplain name hname).no_comment⟩
  have hcolon : Text.IsWord [':'] := .of_all (by decide) (by decide)
  cases h with
  | blank => exact hnames
  | tokens names => exact List.forall_mem_cons.mpr ⟨⟨isWord_tokenWord, by decide⟩, hnames⟩
  | head name =>
    have hname := hplain name List.mem_cons_self
    refine List.forall_mem_singleton.mpr ⟨hname.word.concat (by decide), fun hmem => ?_⟩
    rcases List.mem_append.mp hmem with hmem | hmem
    · exact hname.no_comment hmem
    · exact absurd hmem (by decide)
  | parted name =>
    have hname := hplain name List.mem_cons_self
    exact List.forall_mem_cons.mpr ⟨⟨hname.word, hname.no_comment⟩,
      List.forall_mem_singleton.mpr ⟨hcolon, by decide⟩⟩
  | empty => exact List.forall_mem_singleton.mpr ⟨.of_all (by decide) (by decide), by decide⟩
  | body => exact hnames

theorem content_append (htext : '#' ∉ text) (hcomment : comment = [] ∨ comment.head? = some '#') :
    content (text ++ comment) = text := by
  have hkeep : ∀ c ∈ text, decide (c ≠ '#') := by
    intro c hc
    rw [decide_eq_true_eq]
    rintro rfl
    exact htext hc
  rw [content, List.takeWhile_append_of_pos hkeep]
  rcases hcomment with rfl | hcomment
  · exact List.append_nil text
  · obtain ⟨tail, rfl⟩ := List.head?_eq_some_iff.mp hcomment
    rw [List.takeWhile_cons_of_neg (by decide), List.append_nil]

theorem namesOf_map_toList (names : List String) : namesOf (names.map String.toList) = names := by
  simp [namesOf]

theorem Spells.says (h : Spells ws line) (hline : Legible line) : Says ws line := by
  cases h with
  | blank => exact .blank
  | tokens names =>
    have h := Says.tokens (names.map String.toList)
    rwa [namesOf_map_toList] at h
  | head name =>
    have h := Says.head (hline.head name rfl)
    rwa [String.ofList_toList] at h
  | parted name =>
    have h := Says.parted (hline.head name rfl)
    rwa [String.ofList_toList] at h
  | empty => exact .empty
  | @body names hsome =>
    have hplain : ∀ w ∈ names.map String.toList, Plain w := List.forall_mem_map.mpr hline.plain
    have h : Says (names.map String.toList) (.body (namesOf (names.map String.toList))) := by
      refine .body (by simpa using hsome) (fun hfirst => ?_) (fun last hlast => ?_) fun hempty => ?_
      · exact (hplain tokenWord (List.mem_of_mem_head? hfirst)).ne_tokenWord rfl
      · exact (hplain last (List.mem_of_getLast? hlast)).no_colon
      · exact (hplain emptyWord hempty).ne_emptyWord rfl
    rwa [namesOf_map_toList] at h

theorem Written.reads (h : Written raw line) (hline : Legible line) : Reads raw line := by
  obtain ⟨ws, text, comment, hspells, htext, rfl, hcomment⟩ := h
  have hwords := hspells.forall_words hline.plain
  have hfree : '#' ∉ text := by
    intro hmem
    rcases htext.mem hmem with hblank | ⟨w, hw, hmem⟩
    · exact absurd hblank (by decide)
    · exact (hwords w hw).2 hmem
  rw [Reads, content_append hfree hcomment, htext.words_eq fun w hw => (hwords w hw).1]
  exact hspells.says hline

theorem forall₂_reads (h : List.Forall₂ Written raws lines) (hlines : ∀ line ∈ lines, Legible line) :
    List.Forall₂ Reads raws lines := by
  induction h with
  | nil => exact .nil
  | cons hline _ ih =>
    obtain ⟨hfirst, hrest⟩ := List.forall_mem_cons.mp hlines
    exact .cons (hline.reads hfirst) (ih hrest)

end Source

/-- The productions are told apart, the first nonterminal is the start, nonterminals are identifiers, and terminals are
read as names. -/
structure Grammar.Writable (g : Grammar) : Prop where
  nodup : g.productions.Nodup
  start : g.start = g.symbols.terminalCount
  nonterminal : ∀ name ∈ g.symbols.nonterminals, Source.isIdentifier name.toList
  terminal : ∀ name ∈ g.symbols.terminals, Source.Plain name.toList

theorem Grammar.Writable.plain {g : Grammar} (hg : g.Writable) {x : Nat} (hx : x < g.symbols.size) (hne : x ≠ endId) :
    Source.Plain (g.symbols.name x).toList := by
  rcases g.symbols.isTerminal_or_isNonterminal hx with hx | hx
  · exact hg.terminal _ (Vocabulary.mem_terminals_iff.mpr ⟨x, hx, hne, rfl⟩)
  · exact .of_isIdentifier (hg.nonterminal _ (Vocabulary.mem_nonterminals_iff.mpr ⟨x, hx, rfl⟩))

namespace Source

/-- The lines declare the terminals in the order of their ids, have the nonterminals as heads in that order, and the
productions in that order under their heads. -/
structure Lists (lines : List SourceLine) (g : Grammar) : Prop where
  terminals : declaredIn lines = g.symbols.terminals
  heads : distinct (headsIn lines) = g.symbols.nonterminals
  productions : productionLines none lines = g.productions.map fun p => (g.symbols.rule p).line

theorem Lists.legible (h : Lists lines g) (hg : g.Writable) : ∀ line ∈ lines, Legible line := by
  intro line hline
  cases line with
  | blank => exact ⟨fun name hname => absurd hname List.not_mem_nil, fun name hname => nomatch hname⟩
  | tokens names =>
    refine ⟨fun name hname => hg.terminal name ?_, fun name hname => nomatch hname⟩
    rw [← h.terminals]
    exact List.mem_flatMap.mpr ⟨.tokens names, hline, hname⟩
  | head name =>
    have hident : isIdentifier name.toList := by
      refine hg.nonterminal name ?_
      rw [← h.heads, mem_distinct]
      exact List.mem_filterMap.mpr ⟨.head name, hline, rfl⟩
    refine ⟨fun other hother => ?_, fun other hother => ?_⟩
    · obtain rfl := List.mem_singleton.mp hother
      exact .of_isIdentifier hident
    · obtain rfl := Option.some.inj hother
      exact hident
  | body names =>
    refine ⟨fun name hname => ?_, fun name hname => nomatch hname⟩
    obtain ⟨before, after, hlines⟩ := List.append_of_mem hline
    have hmem := mem_productionLines.mpr ⟨before, after, hlines, rfl⟩
    rw [h.productions] at hmem
    obtain ⟨p, hp, heq⟩ := List.mem_map.mp hmem
    obtain ⟨-, rfl⟩ := Prod.mk.inj heq
    obtain ⟨x, hx, rfl⟩ := List.mem_map.mp hname
    obtain ⟨hne, hlt⟩ := (g.fits p hp).rhs x hx
    exact hg.plain hlt hne

/-- The draft of a grammar that is listed. -/
theorem Lists.describes (h : Lists lines g) :
    Describes lines ⟨g.symbols.terminals, g.symbols.nonterminals, g.productions.map g.symbols.rule⟩ := by
  have hfresh : ∀ head ∈ headsIn lines, decide (head ∉ declaredIn lines) := by
    intro head hhead
    rw [← mem_distinct, h.heads] at hhead
    rw [decide_eq_true_eq, h.terminals]
    intro hterminal
    have hnodup := (List.nodup_cons.mp g.symbols.nodup).2
    exact (List.nodup_append.mp hnodup).2.2 head hterminal head hhead rfl
  refine ⟨h.terminals.symm, ?_, ?_⟩
  · rw [List.filter_eq_self.mpr hfresh, h.heads]
  · rw [h.productions, List.map_map]
    rfl

/-- A source that lists a grammar loads as that grammar. -/
theorem load_of_written (hg : g.Writable) (hlists : Lists lines g)
    (hwritten : List.Forall₂ Written (Text.lines source.toList) lines) : load source = .ok g := by
  refine load_eq_ok.mpr ⟨lines, forall₂_reads hwritten (hlists.legible hg), _, hlists.describes, ?_⟩
  refine Draft.build_eq_ok.mpr ⟨rfl, rfl, hg.start, ?_⟩
  rw [← Vocabulary.map_distinct_rule fun p hp => (g.fits p hp).inRange, distinct_of_nodup hg.nodup]

end Source

/-- Lists of items: `List` is `Item List` or empty, and `Item` is `a`. -/
def Grammar.items : Grammar where
  symbols := ⟨["a"], ["List", "Item"], by decide⟩
  productions := [⟨2, [3, 2]⟩, ⟨3, [1]⟩, ⟨2, []⟩]
  start := 2
  start_nonterminal := by decide
  fits := fun p hp => Production.fits_of_fault? (by revert p; decide)
  headed := by decide

namespace Source

/-- The second production of `List` stands under a head of its own, behind the production of `Item`. -/
def itemsSource : String := "%token a # a letter\nList:\n  Item List\nItem :\n\ta\nList:\n  %empty\n"

def itemsLines : List SourceLine :=
  [.tokens ["a"], .head "List", .body ["Item", "List"], .head "Item", .body ["a"], .head "List", .body []]

theorem load_of_written_items : Grammar.items.Writable ∧ Lists itemsLines .items ∧
    List.Forall₂ Written (Text.lines itemsSource.toList) itemsLines ∧ load itemsSource = .ok .items := by
  have hg : Grammar.items.Writable := by
    refine ⟨by decide, rfl, by decide, List.forall_mem_singleton.mpr ?_⟩
    exact ⟨.of_all (by decide) (by decide), by decide, by decide, by decide, by decide⟩
  have hlists : Lists itemsLines .items := ⟨by decide, by decide, by decide⟩
  have hraws : Text.lines itemsSource.toList = ["%token a # a letter", "List:", "  Item List", "Item :", "\ta", "List:",
      "  %empty"].map String.toList := by decide
  have hwritten : List.Forall₂ Written (Text.lines itemsSource.toList) itemsLines := by
    rw [hraws]
    refine .cons ?_ (.cons ?_ (.cons ?_ (.cons ?_ (.cons ?_ (.cons ?_ (.cons ?_ .nil))))))
    · exact ⟨_, "%token a ".toList, "# a letter".toList, .tokens ["a"], (Text.words_eq_iff.mp (by decide)).1, by decide,
        .inr rfl⟩
    · exact .of_words (.head "List") (by decide)
    · exact .of_words (.body (List.cons_ne_nil "Item" ["List"])) (by decide)
    · exact .of_words (.parted "Item") (by decide)
    · exact .of_words (.body (List.cons_ne_nil "a" [])) (by decide)
    · exact .of_words (.head "List") (by decide)
    · exact .of_words .empty (by decide)
  exact ⟨hg, hlists, hwritten, load_of_written hg hlists hwritten⟩

end Source

end ShiftReduce
