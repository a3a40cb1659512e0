import ShiftReduce.Grammar.Draft
import ShiftReduce.Text.Words

/-!
# Grammar sources

The text form of a grammar. A `#` starts a comment and blanks at the ends of a line do not count. A line
`%token a b` declares terminals, a line `A:` is the head of the production lines below it, and a
production line lists its symbols or is the single word `%empty`. Heads and terminals may be used
before the line that declares them; the first head is the start.
-/

namespace ShiftReduce

/-- Why a text is no grammar source. -/
inductive SourceError
  /-- a production line has no head line above it -/
  | productionWithoutHead (line : Nat)
  /-- a line ends like a head line and does not name one nonterminal -/
  | malformedHead (line : Nat) (text : String)
  /-- the sign for an empty production stands beside symbols -/
  | misplacedEmpty (line : Nat)
  /-- the lines are well formed and describe no grammar -/
  | grammar (fault : GrammarError)
deriving DecidableEq

def SourceError.message : SourceError → String
  | productionWithoutHead line => s!"line {line}: production does not belong to any nonterminal"
  | malformedHead line text => s!"line {line}: malformed nonterminal head `{text}`"
  | misplacedEmpty line => s!"line {line}: `%empty` must be the only symbol of a production"
  | grammar fault => fault.message

inductive SourceLine
  | blank
  | tokens (names : List String)
  | head (name : String)
  | body (names : List String)
deriving DecidableEq

namespace Source

/-- The word that opens a line of terminals. -/
def tokenWord : List Char := "%token".toList

/-- The word that stands for an empty right-hand side. -/
def emptyWord : List Char := "%empty".toList

/-- Whether a letter of the Latin alphabet or an underscore. -/
def opensIdentifier (c : Char) : Bool :=
  c.isAlpha || c == '_'

/-- Whether the text is a letter or underscore with letters, digits and underscores after it. -/
def isIdentifier : List Char → Bool
  | [] => false
  | c :: cs => opensIdentifier c && cs.all fun c => opensIdentifier c || c.isDigit

def namesOf (words : List (List Char)) : List String :=
  words.map String.ofList

/-- The text behind the word for terminals, if the line opens with this word. -/
def afterTokenWord? (line : List Char) : Option (List Char) :=
  if tokenWord.isPrefixOf line then
    let rest := line.drop tokenWord.length
    if rest.head?.all Text.isBlank then some rest else none
  else none

/-- The text before a final colon, if there is one. -/
def beforeColon? (line : List Char) : Option (List Char) :=
  if line.getLast? = some ':' then some line.dropLast else none

/-- A line of symbols. -/
def bodyLine (number : Nat) (words : List (List Char)) : Except SourceError SourceLine :=
  if words.contains emptyWord then
    if words.length = 1 then .ok (.body []) else .error (.misplacedEmpty number)
  else .ok (.body (namesOf words))

/-- What a line says; `number` is its place in the source, from 1. -/
def classify (number : Nat) (raw : List Char) : Except SourceError SourceLine :=
  let line := Text.trim (raw.takeWhile (· ≠ '#'))
  if line.isEmpty then .ok .blank
  else match afterTokenWord? line with
    | some rest => .ok (.tokens (namesOf (Text.words rest)))
    | none =>
      match beforeColon? line with
      | some before =>
        let name := Text.trim before
        if isIdentifier name then .ok (.head (String.ofList name))
        else .error (.malformedHead number (String.ofList line))
      | none => bodyLine number (Text.words line)

/-- The lines of a source from line `number` on, each with its number. -/
def classifyFrom (number : Nat) : List (List Char) → Except SourceError (List (Nat × SourceLine))
  | [] => .ok []
  | raw :: raws => do
    let line ← classify number raw
    let lines ← classifyFrom (number + 1) raws
    return (number, line) :: lines

/-- The lines of a source with their numbers, or the first faulty one. -/
def readLines (source : String) : Except SourceError (List (Nat × SourceLine)) :=
  classifyFrom 1 (Text.lines source.toList)

/-- The names on the lines of terminals, in order. -/
def terminalNames (lines : List (Nat × SourceLine)) : List String :=
  lines.flatMap fun line =>
    match line.2 with
    | .tokens names => names
    | _ => []

/-- The names on the head lines, in order. -/
def headNames (lines : List (Nat × SourceLine)) : List String :=
  lines.filterMap fun line =>
    match line.2 with
    | .head name => some name
    | _ => none

/-- The rules on the lines of symbols, each under the nearest head above; `above` is the head above
the first line. -/
def rulesFrom (above : Option String) : List (Nat × SourceLine) → Except SourceError (List Rule)
  | [] => .ok []
  | (number, line) :: lines =>
    match line with
    | .blank | .tokens _ => rulesFrom above lines
    | .head name => rulesFrom (some name) lines
    | .body names =>
      match above with
      | none => .error (.productionWithoutHead number)
      | some head => do
        let rules ← rulesFrom above lines
        return ⟨head, names⟩ :: rules

/-- The draft that the lines describe: all terminals and heads are declared before any rule. A head
that is a terminal is left to the check of the grammar. -/
def draftOf (lines : List (Nat × SourceLine)) : Except SourceError Draft := do
  let rules ← rulesFrom none lines
  let terminals := terminalNames lines
  let heads := (headNames lines).filter (· ∉ terminals)
  let declared := heads.foldl Draft.nonterminal (terminals.foldl Draft.terminal Draft.empty)
  return rules.foldl Draft.rule declared

def draft (source : String) : Except SourceError Draft := do
  draftOf (← readLines source)

/-- The grammar that a source describes, or the first fault. -/
def load (source : String) : Except SourceError Grammar := do
  let d ← draft source
  d.build.mapError .grammar

/-- What loading tells: the number of lines, unless a line is at fault, and what building tells. -/
def notices (source : String) : List Notice :=
  match draft source with
  | .error _ => []
  | .ok d => .sourceRead (Text.lines source.toList).length :: d.notices

end Source

end ShiftReduce
