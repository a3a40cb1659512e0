/-!
# Command-line arguments

Arguments told apart into flags, options with a value, and positional arguments, in any order. An option
takes its value from behind an equals sign or from the next argument, a short option also from the
letters right behind it; no value is empty, and no option is given twice. Two dashes end the options.
-/

namespace ShiftReduce

/-- The options that a command knows, by their names without dashes. -/
structure OptionNames where
  flags : List String
  values : List String
  /-- the short forms of options with a value -/
  shorts : List (Char × String)

structure Arguments where
  flags : List String := []
  values : List (String × String) := []
  positionals : List String := []
deriving DecidableEq

inductive Argument
  | positional
  | dashes
  | flag (name : String)
  /-- an option with its value -/
  | value (name : String) (text : List Char)
  /-- an option whose value is the next argument -/
  | awaiting (name : String)
  | unknown
deriving DecidableEq

namespace OptionNames

variable (names : OptionNames)

/-- What an argument with two dashes is; `body` is the text behind them. -/
def classifyLong (body : List Char) : Argument :=
  let name := String.ofList (body.takeWhile (· ≠ '='))
  match body.dropWhile (· ≠ '=') with
  | [] =>
    if name ∈ names.flags then .flag name
    else if name ∈ names.values then .awaiting name
    else .unknown
  | _ :: text => if name ∈ names.values then .value name text else .unknown

/-- What an argument with one dash is: `c` is its first letter and `more` the text behind it. -/
def classifyShort (c : Char) (more : List Char) : Argument :=
  match names.shorts.lookup c, more with
  | none, _ => .unknown
  | some name, [] => .awaiting name
  | some name, '=' :: text => .value name text
  | some name, text => .value name text

/-- What an argument is. A dash alone is an ordinary argument. -/
def classify : List Char → Argument
  | ['-', '-'] => .dashes
  | '-' :: '-' :: body => names.classifyLong body
  | '-' :: c :: more => names.classifyShort c more
  | _ => .positional

end OptionNames

namespace Arguments

variable (a : Arguments)

/-- Adds a flag that is not there yet. -/
def addFlag (name : String) : Option Arguments :=
  if name ∈ a.flags then none else some { a with flags := name :: a.flags }

/-- Adds the value of an option that is not there yet. -/
def addValue (name : String) (text : List Char) : Option Arguments :=
  if text.isEmpty || a.values.any (·.1 == name) then none
  else some { a with values := (name, String.ofList text) :: a.values }

def addPositionals (texts : List (List Char)) : Arguments :=
  { a with positionals := a.positionals ++ texts.map String.ofList }

/-- Whether an argument cannot be the value of the option before it. -/
def opensOption : List Char → Bool
  | '-' :: _ :: _ => true
  | _ => false

/-- Adds all arguments of a list, unless one of them is out of place. -/
def scan (names : OptionNames) (a : Arguments) : List (List Char) → Option Arguments
  | [] => some a
  | arg :: rest =>
    match names.classify arg with
    | .positional => scan names (a.addPositionals [arg]) rest
    | .dashes => some (a.addPositionals rest)
    | .flag name => do scan names (← a.addFlag name) rest
    | .value name text => do scan names (← a.addValue name text) rest
    | .awaiting name =>
      match rest with
      | [] => none
      | text :: rest => if opensOption text then none else do scan names (← a.addValue name text) rest
    | .unknown => none

/-- The arguments of a command, told apart. -/
def of? (names : OptionNames) (args : List String) : Option Arguments :=
  scan names {} (args.map String.toList)

def has (name : String) : Bool :=
  name ∈ a.flags

def value? (name : String) : Option String :=
  a.values.lookup name

end Arguments

end ShiftReduce
