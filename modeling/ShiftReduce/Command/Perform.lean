import ShiftReduce.Automaton.Report
import ShiftReduce.Command.Basic
import ShiftReduce.Command.Directory
import ShiftReduce.Grammar.Follow
import ShiftReduce.Grammar.Source
import ShiftReduce.Run.Finish
import ShiftReduce.Run.Trace
import ShiftReduce.Table.Binary
import ShiftReduce.Table.Dump
import ShiftReduce.Token.Words

/-!
# Carrying out commands

A command reads its grammar first and stops at the first failure; what it printed and wrote until then
stays. It succeeds unless it fails or one of its inputs is rejected.
-/

namespace ShiftReduce

inductive Failure
  | grammarUnread (path : String) (why : FileError)
  | grammarInvalid (path : String) (why : SourceError)
  | tablesUnread (path : String) (why : FileError)
  | tablesInvalid (path : String) (why : ReadError)
  /-- the tables have other numbers of symbols than the grammar -/
  | tablesForeign (tables grammar : String)
  | tablesUnwritten (path : String) (why : FileError)
  | dumpUnwritten (path : String) (why : FileError)
  | inputUnknown (why : UnknownWord)
  /-- a run left its tables, or it has no end -/
  | astray (why : Fault)
deriving DecidableEq

def Failure.message : Failure → String
  | grammarUnread path why => "failed to read grammar " ++ path ++ ": " ++ why.message
  | grammarInvalid path why => "invalid grammar " ++ path ++ ": " ++ why.message
  | tablesUnread path why => "failed to load tables " ++ path ++ ": " ++ why.message
  | tablesInvalid path why => "failed to load tables " ++ path ++ ": " ++ why.message
  | tablesForeign tables grammar =>
    "tables " ++ tables ++ " were not built from grammar " ++ grammar
  | tablesUnwritten path why => "failed to write " ++ path ++ ": " ++ why.message
  | dumpUnwritten path why => "failed to create " ++ path ++ ": " ++ why.message
  | inputUnknown why => why.message
  | astray _ => "the run left its tables"

namespace Command

variable {m : Type → Type} [Monad m]

/-- Fails with the reason that `failure` makes of an error. -/
def orFail {ε α : Type} (failure : ε → Failure) (result : Except ε α) : ExceptT Failure m α :=
  match result with
  | .ok value => return value
  | .error why => throw (failure why)

variable (host : Host m)

def printLine (text : String) : ExceptT Failure m Unit :=
  ExceptT.lift (host.print (text ++ "\n"))

/-- The grammar in a file. -/
def grammarAt (path : String) : ExceptT Failure m Grammar := do
  let bytes ← orFail (.grammarUnread path) (← ExceptT.lift (host.read path))
  let source ← orFail (.grammarUnread path) (textOf? bytes)
  orFail (.grammarInvalid path) (Source.load source)

/-- The tables in a file, for a grammar with equally many symbols. -/
def tablesAt (path grammarPath : String) (g : Grammar) : ExceptT Failure m Tables := do
  let bytes ← orFail (.tablesUnread path) (← ExceptT.lift (host.read path))
  let (t, _) ← orFail (.tablesInvalid path) (Tables.read bytes)
  if t.terminalCount.toNat = g.symbols.terminalCount
      && t.nonterminalCount.toNat = g.symbols.nonterminals.length then
    return t
  else throw (.tablesForeign path grammarPath)

/-- Writes the tables of a grammar and prints their summary first. -/
def performGenerate (grammar output : String) (json : Option String) (options : Options) :
    ExceptT Failure m Bool := do
  let g ← grammarAt host grammar
  let t := Tables.of options g
  printLine host t.summary
  orFail (.tablesUnwritten output) (← ExceptT.lift (host.write output t.write))
  match json with
  | none => return true
  | some path =>
    orFail (.dumpUnwritten path) (← ExceptT.lift (host.write path t.dump.toUTF8.toList))
    return true

/-- Prints the report on the automaton of a grammar, between the symbols and the summary. -/
def performReport (grammar : String) (symbols : Bool) (options : Options) :
    ExceptT Failure m Bool := do
  let g ← grammarAt host grammar
  let a := Automaton.of options g
  if symbols then printLine host g.listing
  ExceptT.lift (host.print (a.report g))
  printLine host (a.tables g).summary
  return true

/-- Parses an input and prints its trace and its end. -/
def performInput (g : Grammar) (p : Parser) (input : String) : ExceptT Failure m Bool := do
  let stream ← orFail .inputUnknown (g.symbols.scan input)
  printLine host ("> " ++ input)
  let (r, events) ← orFail .astray (p.parse stream)
  ExceptT.lift (host.print (Trace.text events))
  match r.rejection? with
  | none =>
    printLine host "ACCEPTED"
    return true
  | some why =>
    printLine host ("REJECTED: " ++ why.message)
    return false

/-- Parses inputs one after the other, and tells whether all are accepted. -/
def performInputs (g : Grammar) (p : Parser) : List String → ExceptT Failure m Bool
  | [] => return true
  | input :: inputs => do
    let accepted ← performInput host g p input
    let rest ← performInputs g p inputs
    return accepted && rest

/-- Parses inputs with tables from a file or, without one, tables made from the grammar. -/
def performParse (grammar : String) (tables : Option String) (lookahead : Bool)
    (inputs : List String) : ExceptT Failure m Bool := do
  let g ← grammarAt host grammar
  let t ← match tables with
    | some path => tablesAt host path grammar g
    | none => pure (Tables.of { method := if lookahead then .slr else .lr0 } g)
  performInputs host g ⟨t, lookahead⟩ inputs

/-- Carries out a command; the answer tells whether all inputs are accepted. -/
def perform : Command → ExceptT Failure m Bool
  | .generate grammar output json flags => performGenerate host grammar output json flags.options
  | .report grammar symbols flags => performReport host grammar symbols flags.options
  | .parse grammar tables lookahead inputs => performParse host grammar tables lookahead inputs

/-- The end of the program: its exit code and its error text. -/
structure Ending where
  exitCode : UInt32
  complaint : String
deriving DecidableEq

/-- How the program ends after a command. -/
def endingOf : Except Failure Bool → Ending
  | .ok true => ⟨0, ""⟩
  | .ok false => ⟨1, ""⟩
  | .error why => ⟨1, "error: " ++ why.message ++ "\n"⟩

/-- The program: carries out the command that is read off the command line. -/
def run (reader : Reader) (args : List String) : m Ending :=
  match reader args with
  | .error refusal => do
    host.print refusal.printed
    return ⟨refusal.exitCode, refusal.complaint⟩
  | .ok command => return endingOf (← (command.perform host).run)

/-- The program over files in memory: its end, the text it prints and the files it leaves. -/
def runIn (directory : Directory) (args : List String) : Ending × Session :=
  (run Session.host read args).run ⟨directory, ""⟩

end Command

end ShiftReduce
