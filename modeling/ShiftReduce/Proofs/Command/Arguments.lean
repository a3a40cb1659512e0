import ShiftReduce.Command.Basic

/-!
# Command lines without surprises

A plain command line saves tables or parses inputs, and no path or input on it looks like an option. A reader is
`Plain` if it takes these lines for what they look like. `Command.read` is plain (`Command.read_plain`), since arguments
that open no option are taken as they stand (`Arguments.scan_plain`).
-/

namespace ShiftReduce

namespace Arguments

variable {names : OptionNames} {a : Arguments} {arg : List Char}

theorem classify_plain (h : opensOption arg = false) : names.classify arg = .positional := by
  unfold OptionNames.classify
  split
  · cases h
  · cases h
  · cases h
  · rfl

theorem scan_plain {args : List String} (h : ∀ arg ∈ args, opensOption arg.toList = false) :
    scan names a (args.map String.toList) = some (a.addPositionals (args.map String.toList)) := by
  induction args generalizing a with
  | nil => simp [scan, addPositionals]
  | cons arg args ih =>
    rw [List.map_cons, scan, classify_plain (h arg List.mem_cons_self)]
    simp only
    rw [ih fun arg' harg => h arg' (List.mem_cons_of_mem _ harg)]
    simp [addPositionals]

theorem scan_cons_plain {rest : List (List Char)} (h : opensOption arg = false) :
    scan names a (arg :: rest) = scan names (a.addPositionals [arg]) rest := by
  rw [scan, classify_plain h]

theorem scan_flag {name : String} {rest : List (List Char)} (h : names.classify arg = .flag name) (hnew : name ∉ a.flags) :
    scan names a (arg :: rest) = scan names { a with flags := name :: a.flags } rest := by
  rw [scan, h]
  simp only [addFlag, if_neg hnew]
  rfl

/-- The value of an option stands in the next argument. -/
theorem scan_value {name : String} {text : List Char} {rest : List (List Char)} (h : names.classify arg = .awaiting name)
    (htext : text ≠ []) (hplain : opensOption text = false) (hnew : a.values.any (·.1 == name) = false) :
    scan names a (arg :: text :: rest) =
      scan names { a with values := (name, String.ofList text) :: a.values } rest := by
  have hadd : a.addValue name text = some { a with values := (name, String.ofList text) :: a.values } := by
    rw [addValue, hnew, Bool.or_false, List.isEmpty_eq_false_iff.mpr htext, if_neg Bool.false_ne_true]
  rw [scan, h]
  simp only [hplain, hadd, Bool.false_eq_true, if_false]
  rfl

end Arguments

namespace Command

open Arguments

/-- The command line that saves tables for parses, with or without a lookahead check. -/
def generateLine (grammar tables : String) (lookahead : Bool) : List String :=
  ["generate", grammar, "-o", tables] ++ if lookahead then ["--slr"] else []

/-- The command line of a parse, with saved tables or without. -/
def parseLine (grammar : String) (tables : Option String) (lookahead : Bool) (inputs : List String) : List String :=
  ["parse", grammar] ++ tables.elim [] (["--tables", ·]) ++ (if lookahead then ["--lookahead"] else []) ++ inputs

/-- An argument that is taken as a path: it opens no option and is not empty. -/
structure IsPath (arg : String) : Prop where
  plain : opensOption arg.toList = false
  nonempty : arg ≠ ""

/-- Plain lines are read as the commands that they look like. A parse without inputs is wrong, which an error text
tells and nothing else does. -/
structure Reader.Plain (reader : Reader) : Prop where
  generate (lookahead : Bool) {grammar path : String} (hgrammar : IsPath grammar) (hpath : IsPath path) :
    reader (generateLine grammar path lookahead) = .ok (.generate grammar path none { slr := lookahead })
  parse (tables : Option String) (lookahead : Bool) {grammar : String} {inputs : List String} (hgrammar : IsPath grammar)
    (htables : ∀ path ∈ tables, IsPath path) (hinputs : ∀ input ∈ inputs, Arguments.opensOption input.toList = false)
    (hsome : inputs ≠ []) :
    reader (parseLine grammar tables lookahead inputs) = .ok (.parse grammar tables lookahead inputs)
  inputless (tables : Option String) (lookahead : Bool) {grammar : String} (hgrammar : IsPath grammar)
    (htables : ∀ path ∈ tables, IsPath path) :
    ∃ complaint, reader (parseLine grammar tables lookahead []) = .error ⟨2, "", complaint⟩

variable {grammar path : String} {tables : Option String} {inputs : List String} {lookahead : Bool}

theorem of?_generateLine (hgrammar : IsPath grammar) (hpath : IsPath path) :
    of? (generateLine grammar path lookahead) = some (.generate grammar path none { slr := lookahead }) := by
  have hoption : generateNames.classify "-o".toList = .awaiting "output" := by decide
  have hflag : generateNames.classify "--slr".toList = .flag "slr" := by decide
  have htext : path.toList ≠ [] := by simpa using hpath.nonempty
  have hargs : Arguments.of? generateNames ([grammar, "-o", path] ++ if lookahead then ["--slr"] else []) =
      some ⟨if lookahead then ["slr"] else [], [("output", path)], [grammar]⟩ := by
    rw [Arguments.of?, List.cons_append, List.map_cons, scan_cons_plain hgrammar.plain, List.cons_append, List.map_cons,
      List.cons_append, List.map_cons, scan_value hoption htext hpath.plain rfl]
    cases lookahead with
    | false => simp [scan, addPositionals]
    | true =>
      rw [if_pos rfl, List.nil_append, List.map_cons, scan_flag hflag List.not_mem_nil]
      simp [scan, addPositionals]
  change ofArguments? "generate" ([grammar, "-o", path] ++ if lookahead then ["--slr"] else []) = _
  simp only [ofArguments?, hargs]
  cases lookahead <;> simp [hgrammar.nonempty, flagsOf, has, value?]

/-- The flag and the inputs behind the other arguments of a parse. -/
theorem scan_inputs {a : Arguments} (hflags : a.flags = [])
    (hinputs : ∀ input ∈ inputs, opensOption input.toList = false) :
    scan parseNames a (((if lookahead then ["--lookahead"] else []) ++ inputs).map String.toList) =
      some ⟨if lookahead then ["lookahead"] else [], a.values, a.positionals ++ inputs⟩ := by
  have hflag : parseNames.classify "--lookahead".toList = .flag "lookahead" := by decide
  cases lookahead with
  | false =>
    rw [if_neg Bool.false_ne_true, List.nil_append, scan_plain hinputs]
    simp [addPositionals, hflags]
  | true =>
    rw [if_pos rfl, List.cons_append, List.map_cons, scan_flag hflag (hflags ▸ List.not_mem_nil), List.nil_append,
      scan_plain hinputs]
    simp [addPositionals, hflags]

/-- The arguments of a parse are told apart. A parse without inputs is refused. -/
theorem of?_parseLine (hgrammar : IsPath grammar) (htables : ∀ path ∈ tables, IsPath path)
    (hinputs : ∀ input ∈ inputs, opensOption input.toList = false) :
    of? (parseLine grammar tables lookahead inputs) =
      if inputs = [] then none else some (.parse grammar tables lookahead inputs) := by
  have hoption : parseNames.classify "--tables".toList = .awaiting "tables" := by decide
  have hargs : Arguments.of? parseNames (grammar ::
      (tables.elim [] (["--tables", ·]) ++ ((if lookahead then ["--lookahead"] else []) ++ inputs))) =
      some ⟨if lookahead then ["lookahead"] else [], tables.toList.map ("tables", ·), grammar :: inputs⟩ := by
    rw [Arguments.of?, List.map_cons, scan_cons_plain hgrammar.plain]
    cases tables with
    | none =>
      rw [Option.elim_none, List.nil_append, scan_inputs rfl hinputs]
      simp [addPositionals]
    | some path =>
      have hpath := htables path rfl
      rw [Option.elim_some, List.cons_append, List.map_cons, List.cons_append, List.map_cons, List.nil_append,
        scan_value hoption (by simpa using hpath.nonempty) hpath.plain rfl, scan_inputs rfl hinputs]
      simp [addPositionals]
  rw [parseLine, List.append_assoc, List.append_assoc]
  change ofArguments? "parse" (grammar ::
    (tables.elim [] (["--tables", ·]) ++ ((if lookahead then ["--lookahead"] else []) ++ inputs))) = _
  simp only [ofArguments?, hargs]
  cases inputs <;> cases lookahead <;> cases tables <;> simp [hgrammar.nonempty, has, value?]

theorem read_plain : Reader.Plain read where
  generate _ _ _ hgrammar hpath := by rw [read, of?_generateLine hgrammar hpath]
  parse _ _ _ _ hgrammar htables hinputs hsome := by rw [read, of?_parseLine hgrammar htables hinputs, if_neg hsome]
  inputless _ _ _ hgrammar htables := by
    rw [read, of?_parseLine hgrammar htables (by simp), if_pos rfl]
    exact ⟨_, rfl⟩

end Command

end ShiftReduce
