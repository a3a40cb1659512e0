import ShiftReduce.Automaton.Options
import ShiftReduce.Command.Arguments

/-!
# Commands

What the program can be asked to do: write the tables of a grammar, report on its automaton, or parse
inputs. A reader of command lines gives the command or refuses the line; `Command.read` is one.
-/

namespace ShiftReduce

/-- The flags that choose how automata are built. -/
structure BuildFlags where
  slr : Bool := false
  preferReduce : Bool := false
  keepLastReduce : Bool := false
deriving DecidableEq

/-- The build options that the flags choose. -/
def BuildFlags.options (flags : BuildFlags) : Options where
  method := if flags.slr then .slr else .lr0
  onShiftReduce := if flags.preferReduce then .reduce else .shift
  onReduceReduce := if flags.keepLastReduce then .last else .first

inductive Command
  /-- write the tables of a grammar, and perhaps their readable form -/
  | generate (grammar output : String) (json : Option String) (flags : BuildFlags)
  /-- print the states, and perhaps the symbols first -/
  | report (grammar : String) (symbols : Bool) (flags : BuildFlags)
  /-- parse inputs, with tables from a file or made from the grammar -/
  | parse (grammar : String) (tables : Option String) (lookahead : Bool) (inputs : List String)
deriving DecidableEq

/-- Why a command line is not carried out: it asks for something to be printed instead, or it is wrong. -/
structure Refusal where
  exitCode : UInt32
  printed : String
  /-- the error text -/
  complaint : String
deriving DecidableEq

namespace Command

/-- Reads command lines, as a library for them does. -/
abbrev Reader : Type :=
  List String → Except Refusal Command

def buildNames : List String :=
  ["slr", "prefer-reduce", "keep-last-reduce"]

def flagsOf (a : Arguments) : BuildFlags :=
  ⟨a.has "slr", a.has "prefer-reduce", a.has "keep-last-reduce"⟩

def generateNames : OptionNames :=
  ⟨buildNames, ["output", "json"], [('o', "output")]⟩

def reportNames : OptionNames :=
  ⟨"symbols" :: buildNames, [], []⟩

def parseNames : OptionNames :=
  ⟨["lookahead"], ["tables"], []⟩

/-- The command with these arguments; a path is never empty. -/
def ofArguments? (name : String) (args : List String) : Option Command :=
  match name with
  | "generate" => do
    let a ← Arguments.of? generateNames args
    match a.positionals with
    | [grammar] =>
      if grammar.isEmpty then none
      else some (.generate grammar ((a.value? "output").getD "tables.bin") (a.value? "json")
        (flagsOf a))
    | _ => none
  | "report" => do
    let a ← Arguments.of? reportNames args
    match a.positionals with
    | [grammar] =>
      if grammar.isEmpty then none else some (.report grammar (a.has "symbols") (flagsOf a))
    | _ => none
  | "parse" => do
    let a ← Arguments.of? parseNames args
    match a.positionals with
    | grammar :: input :: inputs =>
      if grammar.isEmpty then none
      else some (.parse grammar (a.value? "tables") (a.has "lookahead") (input :: inputs))
    | _ => none
  | _ => none

/-- The command on a command line, if it is well formed. -/
def of? : List String → Option Command
  | [] => none
  | name :: args => ofArguments? name args

def usage : String :=
  "usage: generate GRAMMAR [-o FILE] [--json FILE] [--slr] [--prefer-reduce] [--keep-last-reduce]\n"
    ++ "       report GRAMMAR [--symbols] [--slr] [--prefer-reduce] [--keep-last-reduce]\n"
    ++ "       parse GRAMMAR [--tables FILE] [--lookahead] INPUT...\n"

/-- The reader that knows the commands and nothing else: it refuses all other lines, as it does a call for help. -/
def read : Reader := fun args =>
  match of? args with
  | some command => .ok command
  | none => .error ⟨2, "", usage⟩

end Command

end ShiftReduce
