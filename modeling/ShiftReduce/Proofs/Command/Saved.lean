import ShiftReduce.Proofs.Command.Arguments
import ShiftReduce.Proofs.Command.Directory
import ShiftReduce.Proofs.Table.Binary

/-!
# Saved tables

A parse with tables from a file that was generated from the same grammar ends and prints like a parse that makes its
own tables (`Command.run_saved_tables`), on every lawful host and however command lines are read. The tables are read
back as they were made, they have the symbol counts of the grammar, and the parse of the inputs looks at nothing else.
-/

namespace ShiftReduce

/-- The file at a path is the text of a grammar. -/
def Worlds.Holds {m : Type → Type} (v : Worlds m) (files : v.Files) (path : String) (g : Grammar) : Prop :=
  ∃ bytes source, v.content files path = .ok bytes ∧ textOf? bytes = .ok source ∧ Source.load source = .ok g

namespace Command

variable {m : Type → Type} [Monad m] [LawfulMonad m] {v : Worlds m} {host : Host m}

/-- Two runs, begun in two worlds, end with the same exit code and print the same text. -/
structure Alike (v : Worlds m) (w w' : v.World) (o o' : Ending × v.World) : Prop where
  exitCode : o.1.exitCode = o'.1.exitCode
  printed : ∃ text, v.printed o.2 = v.printed w ++ text ∧ v.printed o'.2 = v.printed w' ++ text

/-- The line `save` succeeds, and in the world that it leaves `saved` runs like `fresh` without it. -/
structure SavesFor (v : Worlds m) (host : Host m) (reader : Reader) (w : v.World) (save saved fresh : List String) :
    Prop where
  saves : (v.run (run host reader save) w).1 = ⟨0, ""⟩
  alike : Alike v (v.run (run host reader save) w).2 w
    (v.run (run host reader saved) (v.run (run host reader save) w).2) (v.run (run host reader fresh) w)

variable {w w' : v.World} {grammar path text : String} {g : Grammar} {options : Options} {lookahead : Bool}
  {inputs : List String} {reader : Reader} {save saved fresh args : List String} {command : Command}
  {result : Except Failure Bool}

section

variable (hhost : host.Lawful v)

include hhost

omit [LawfulMonad m] in
/-- What comes behind a computation that gives a value and prints nothing. -/
theorem Prints.andThen {α β : Type} {x : ExceptT Failure m α} {next : α → ExceptT Failure m β} {value : α}
    {result : Except Failure β} (h : Prints v x w (.ok value) "")
    (hnext : Prints v (next value) (outcome v x w).2 result text) : Prints v (x >>= next) w result text := by
  have hboth := h.bind hhost hnext
  rwa [String.empty_append] at hboth

theorem prints_grammarAt (h : v.Holds (v.files w) path g) : Prints v (grammarAt host path) w (.ok g) "" := by
  obtain ⟨bytes, source, hcontent, htext, hload⟩ := h
  have hread := Prints.read hhost path w
  rw [hcontent] at hread
  refine hread.andThen hhost ((Prints.orFail hhost _ _ _).andThen hhost ?_)
  rw [htext]
  refine (Prints.orFail hhost _ _ _).andThen hhost ?_
  rw [hload]
  exact Prints.orFail hhost _ _ _

theorem prints_tablesAt (hsized : (Automaton.of options g).Sized g)
    (h : v.content (v.files w) path = .ok (Tables.of options g).write) :
    Prints v (tablesAt host path grammar g) w (.ok (Tables.of options g)) "" := by
  have hcons : (Tables.of options g).Consistent := Tables.consistent_iff_fits.mpr (Tables.fits_of_sized hsized)
  have htables : Tables.read (Tables.of options g).write = .ok (Tables.of options g, []) := by
    rw [← List.append_nil (Tables.write _)]
    exact Tables.read_write hcons (Tables.counted_of hsized)
  have hcounts : (decide ((Tables.of options g).terminalCount.toNat = g.symbols.terminalCount) &&
      decide ((Tables.of options g).nonterminalCount.toNat = g.symbols.nonterminals.length)) = true := by
    simp [Tables.terminalCount_of hsized, Tables.nonterminalCount_of hsized]
  have hread := Prints.read hhost path w
  rw [h] at hread
  refine hread.andThen hhost ((Prints.orFail hhost _ _ _).andThen hhost ?_)
  rw [htables]
  refine (Prints.orFail hhost _ _ _).andThen hhost ?_
  simp only [hcounts, if_true]
  exact Prints.pure hhost _ _

/-- Tables that are read or made are all that parses of one grammar differ in. -/
theorem prints_performParse {tables : Option String}
    (hoptions : options = { method := if lookahead then .slr else .lr0 }) (hgrammar : v.Holds (v.files w) grammar g)
    (hsized : (Automaton.of options g).Sized g)
    (htables : ∀ path ∈ tables, v.content (v.files w) path = .ok (Tables.of options g).write)
    (hinputs : ∀ w, Prints v (performInputs host g ⟨Tables.of options g, lookahead⟩ inputs) w result text) :
    Prints v (performParse host grammar tables lookahead inputs) w result text := by
  have hread := prints_grammarAt hhost hgrammar
  refine hread.andThen hhost ?_
  cases tables with
  | none =>
    subst hoptions
    exact (Prints.pure hhost _ _).andThen hhost (hinputs _)
  | some path =>
    refine (prints_tablesAt hhost hsized ?_).andThen hhost (hinputs _)
    rw [hread.files]
    exact htables path rfl

/-- A generate leaves the tables in their file and the grammar in its own. -/
theorem outcome_performGenerate (options : Options) (hgrammar : v.Holds (v.files w) grammar g)
    (hwritable : v.Writable (v.files w) path) (hother : ¬ v.Same (v.files w) grammar path) :
    ∃ w', outcome v (performGenerate host grammar path none options) w = (.ok true, w') ∧
      v.content (v.files w') path = .ok (Tables.of options g).write ∧ v.Holds (v.files w') grammar g := by
  have hread := prints_grammarAt hhost hgrammar
  have hline := Prints.printLine hhost (Tables.of options g).summary (outcome v (grammarAt host grammar) w).2
  have hfiles := hline.files.trans hread.files
  rw [performGenerate, outcome_bind hhost, hread.result]
  simp only
  rw [outcome_bind hhost, hline.result]
  simp only
  -- the world in which the tables are written has the files that `w` has
  generalize (outcome v (printLine host (Tables.of options g).summary) _).2 = w₁ at hfiles
  rw [← hfiles] at hwritable hother hgrammar
  rw [outcome_bind hhost, outcome_lift hhost, hhost.write hwritable]
  have hrest : Prints v (orFail (.tablesUnwritten path) (.ok ()) >>= fun _ => (pure true : ExceptT Failure m Bool))
      (v.run (host.write path (Tables.of options g).write) w₁).2 (.ok true) "" :=
    (Prints.orFail hhost _ _ _).andThen hhost (Prints.pure hhost true _)
  obtain ⟨bytes, source, hcontent, htext, hload⟩ := hgrammar
  refine ⟨_, Prod.ext hrest.result rfl, ?_, bytes, source, ?_, htext, hload⟩
  · rw [hrest.files]
    exact hhost.content_write hwritable _
  · rw [hrest.files]
    exact hhost.content_write_of_not_same hwritable hother hcontent

omit [LawfulMonad m] in
theorem run_of_ok (h : reader args = .ok command) (w : v.World) :
    v.run (run host reader args) w =
      (endingOf (outcome v (command.perform host) w).1, (outcome v (command.perform host) w).2) := by
  rw [run, h]
  simp only
  rw [hhost.run_bind, hhost.run_pure]
  rfl

omit [LawfulMonad m] in
theorem run_of_error {refusal : Refusal} (h : reader args = .error refusal) (w : v.World) :
    v.run (run host reader args) w =
      (⟨refusal.exitCode, refusal.complaint⟩, (v.run (host.print refusal.printed) w).2) := by
  rw [run, h]
  simp only
  rw [hhost.run_bind, hhost.run_pure]

omit [LawfulMonad m] in
/-- Lines that are refused in the same way print the same text. -/
theorem alike_of_error {refusal refusal' : Refusal} (h : reader saved = .error refusal)
    (h' : reader fresh = .error refusal') (hcode : refusal.exitCode = refusal'.exitCode)
    (hprinted : refusal.printed = refusal'.printed) (w w' : v.World) :
    Alike v w w' (v.run (run host reader saved) w) (v.run (run host reader fresh) w') := by
  rw [run_of_error hhost h, run_of_error hhost h']
  refine ⟨hcode, refusal.printed, hhost.printed_print _ w, ?_⟩
  rw [hprinted]
  exact hhost.printed_print _ w'

/-- Parses that read what others make run like those, since neither looks at a file after it. -/
theorem alike_parse (hsaved : reader saved = .ok (.parse grammar (some path) lookahead inputs))
    (hfresh : reader fresh = .ok (.parse grammar none lookahead inputs)) (hgrammar : v.Holds (v.files w) grammar g)
    (hgrammar' : v.Holds (v.files w') grammar g) (hoptions : options = { method := if lookahead then .slr else .lr0 })
    (hsized : (Automaton.of options g).Sized g)
    (htables : v.content (v.files w') path = .ok (Tables.of options g).write) :
    Alike v w' w (v.run (run host reader saved) w') (v.run (run host reader fresh) w) ∧
      (v.run (run host reader saved) w').1 = (v.run (run host reader fresh) w).1 := by
  obtain ⟨result, text, hinputs⟩ := PrintsOnly.performInputs hhost g ⟨Tables.of options g, lookahead⟩ inputs
  have hparse : Prints v (performParse host grammar (some path) lookahead inputs) w' result text :=
    prints_performParse hhost hoptions hgrammar' hsized (fun _ h => Option.some.inj h ▸ htables) hinputs
  have hparse' : Prints v (performParse host grammar none lookahead inputs) w result text :=
    prints_performParse hhost hoptions hgrammar hsized (by simp) hinputs
  rw [run_of_ok hhost hsaved, run_of_ok hhost hfresh, perform, perform, hparse.result, hparse'.result]
  exact ⟨⟨rfl, text, hparse.printed, hparse'.printed⟩, rfl⟩

/-- After a generate the parses that it saves tables for find the tables, and the grammar where it was. -/
theorem exists_run_generate {flags : BuildFlags} (hgrammar : v.Holds (v.files w) grammar g)
    (hwritable : v.Writable (v.files w) path) (hother : ¬ v.Same (v.files w) grammar path)
    (hsave : reader save = .ok (.generate grammar path none flags)) :
    ∃ w', v.run (run host reader save) w = (⟨0, ""⟩, w') ∧
      v.content (v.files w') path = .ok (Tables.of flags.options g).write ∧ v.Holds (v.files w') grammar g := by
  obtain ⟨w', houtcome, htables, hgrammar'⟩ :=
    outcome_performGenerate hhost flags.options hgrammar hwritable hother
  refine ⟨w', ?_, htables, hgrammar'⟩
  rw [run_of_ok hhost hsave, perform, houtcome]
  rfl

theorem savesFor_of_ok (hgrammar : v.Holds (v.files w) grammar g)
    (hsized : (Automaton.of (BuildFlags.options { slr := lookahead }) g).Sized g)
    (hwritable : v.Writable (v.files w) path) (hother : ¬ v.Same (v.files w) grammar path)
    (hsave : reader save = .ok (.generate grammar path none { slr := lookahead }))
    (hsaved : reader saved = .ok (.parse grammar (some path) lookahead inputs))
    (hfresh : reader fresh = .ok (.parse grammar none lookahead inputs)) :
    SavesFor v host reader w save saved fresh ∧
      (v.run (run host reader saved) (v.run (run host reader save) w).2).1 = (v.run (run host reader fresh) w).1 := by
  obtain ⟨w', hrun, htables, hgrammar'⟩ := exists_run_generate hhost hgrammar hwritable hother hsave
  obtain ⟨halike, hending⟩ := alike_parse hhost hsaved hfresh hgrammar hgrammar' rfl hsized htables
  refine ⟨⟨by rw [hrun], ?_⟩, ?_⟩
  · rw [hrun]
    exact halike
  · rw [hrun]
    exact hending

end

/-- Tables that are saved for a parse make it run as it does without them: for the plain command lines, whatever the
inputs are, and for all others that say the same, error texts included. -/
theorem run_saved_tables (hhost : host.Lawful v) (hgrammar : v.Holds (v.files w) grammar g)
    (hsized : (Automaton.of (BuildFlags.options { slr := lookahead }) g).Sized g)
    (hwritable : v.Writable (v.files w) path) (hother : ¬ v.Same (v.files w) grammar path) :
    (∀ reader : Reader, reader.Plain → IsPath grammar → IsPath path →
      ∀ inputs : List String, (∀ input ∈ inputs, Arguments.opensOption input.toList = false) →
      SavesFor v host reader w (generateLine grammar path lookahead) (parseLine grammar (some path) lookahead inputs)
        (parseLine grammar none lookahead inputs)) ∧
    ∀ (reader : Reader) save saved fresh inputs,
      reader save = .ok (.generate grammar path none { slr := lookahead }) →
      reader saved = .ok (.parse grammar (some path) lookahead inputs) →
      reader fresh = .ok (.parse grammar none lookahead inputs) →
      SavesFor v host reader w save saved fresh ∧
        (v.run (run host reader saved) (v.run (run host reader save) w).2).1 = (v.run (run host reader fresh) w).1 := by
  refine ⟨fun reader hreader hpath hpath' inputs hinputs => ?_, fun reader save saved fresh inputs =>
    savesFor_of_ok hhost hgrammar hsized hwritable hother⟩
  have hsave := hreader.generate lookahead hpath hpath'
  have hpaths : ∀ other ∈ some path, IsPath other := fun _ h => Option.some.inj h ▸ hpath'
  by_cases hnone : inputs = []
  · subst hnone
    obtain ⟨w', hrun, -⟩ := exists_run_generate hhost hgrammar hwritable hother hsave
    obtain ⟨_, hsaved⟩ := hreader.inputless (some path) lookahead hpath hpaths
    obtain ⟨_, hfresh⟩ := hreader.inputless none lookahead hpath (by simp)
    exact ⟨by rw [hrun], alike_of_error hhost hsaved hfresh rfl rfl _ _⟩
  · have hsaved := hreader.parse (some path) lookahead hpath hpaths hinputs hnone
    have hfresh := hreader.parse none lookahead hpath (by simp) hinputs hnone
    exact (savesFor_of_ok hhost hgrammar hsized hwritable hother hsave hsaved hfresh).1

def nestedSource : String := "%token a b\nS:\n    a S b\n    %empty\n"

/-- A directory with the grammar `Grammar.nested` in a file. -/
def nestedDirectory : Directory := ⟨[("nested.grammar", nestedSource.toUTF8.toList)]⟩

theorem holds_nested : Session.worlds.Holds nestedDirectory "nested.grammar" .nested :=
  ⟨nestedSource.toUTF8.toList, nestedSource, by decide +kernel, by decide +kernel, rfl⟩

/-- The tables go to the directory above; one input is accepted and the other is not. -/
theorem run_saved_tables_nested :
    Session.worlds.Holds nestedDirectory "nested.grammar" .nested ∧
    (Automaton.of (BuildFlags.options { slr := true }) .nested).Sized .nested ∧
    Session.worlds.Writable nestedDirectory "../nested.bin" ∧
    ¬ Session.worlds.Same nestedDirectory "nested.grammar" "../nested.bin" ∧
    SavesFor Session.worlds Session.host read (⟨nestedDirectory, ""⟩ : Session)
      ["generate", "nested.grammar", "-o", "../nested.bin", "--slr"]
      ["parse", "nested.grammar", "--tables", "../nested.bin", "--lookahead", "a b", "a"]
      ["parse", "nested.grammar", "--lookahead", "a b", "a"] ∧
    SavesFor Session.worlds Session.host read (⟨nestedDirectory, ""⟩ : Session)
      ["generate", "--slr", "-o=../nested.bin", "nested.grammar"]
      ["parse", "--tables=../nested.bin", "nested.grammar", "--lookahead", "--", "-a"]
      ["parse", "--lookahead", "--", "nested.grammar", "-a"] := by
  have hsized : (Automaton.of (BuildFlags.options { slr := true }) .nested).Sized .nested :=
    Automaton.Small.sized (by decide +kernel)
  have hother : ¬ Session.worlds.Same nestedDirectory "nested.grammar" "../nested.bin" := by
    show nestedDirectory.key? "nested.grammar" ≠ nestedDirectory.key? "../nested.bin"
    decide +kernel
  have hlocate : nestedDirectory.locate "../nested.bin" = .ok (.file "../" "nested.bin" false) := by decide +kernel
  have hwritable : Session.worlds.Writable nestedDirectory "../nested.bin" :=
    fun bytes => ⟨_, Directory.write_eq_ok.mpr ⟨_, _, hlocate, by decide, rfl⟩⟩
  obtain ⟨hplain, hothers⟩ := run_saved_tables (v := Session.worlds) (w := (⟨nestedDirectory, ""⟩ : Session))
    Session.lawful holds_nested hsized hwritable hother
  exact ⟨holds_nested, hsized, hwritable, hother,
    hplain read read_plain ⟨by decide, by decide⟩ ⟨by decide, by decide⟩ ["a b", "a"] (by decide),
    (hothers read _ _ _ ["-a"] (by decide +kernel) (by decide +kernel) (by decide +kernel)).1⟩

end Command

end ShiftReduce
