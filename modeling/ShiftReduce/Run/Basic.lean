import ShiftReduce.Run.Outcome
import ShiftReduce.Run.Seen
import ShiftReduce.Run.Stack
import ShiftReduce.Table.Basic

/-!
# Runs

A stack machine driven by tables. It reads a token, reduces as long as the state on top asks for it,
shifts the token and reads the next one, and it accepts when the start symbol alone is reduced at the
end of the input. Between two tokens a stack may not come back and may not grow by more than the number
of states, so that a run over a grammar that derives itself ends, too. A run is a value and a step gives
the next one with the events it records.
-/

namespace ShiftReduce

/-- Tables, and whether a reduce is refused on a symbol outside of the lookahead of its production. -/
structure Parser where
  tables : Tables
  checksLookahead : Bool := false
deriving DecidableEq

structure Run where
  stream : TokenStream
  stack : Stack
  /-- the token acted on -/
  current : Token
  phase : Phase
  /-- the stacks that reduces have made since the last token was read -/
  seen : Seen
  /-- the depth of the stack when the last token was read -/
  readDepth : Nat

namespace Run

def start (stream : TokenStream) : Run :=
  ⟨stream, .bottom, .eof, .reading, .empty, 1⟩

variable (r : Run)

/-- The event of an action that has just been taken. -/
def event (action : Action) : Event :=
  ⟨r.current.symbol, r.current.text, action, r.stack.depth⟩

/-- The current token finds no action in a state. -/
def noAction (state : Nat) : Phase :=
  .rejected (.noAction state r.current.symbol r.current.text)

/-- The run with the next token read. -/
def read : Run :=
  let (token, stream) := r.stream.next
  { r with stream := stream, current := token, seen := .empty, readDepth := r.stack.depth }

def push (state : Nat) : Run :=
  { r with stack := r.stack.push state }

/-- Whether the stack, which has `top` on top, has come back since the last token, or grown past all bounds. -/
def isCycling (states top : Nat) : Bool :=
  r.readDepth + states < r.stack.depth || r.seen.contains r.stack.depth top

/-- The run with its stack remembered, which has `top` on top. -/
def mark (top : Nat) : Run :=
  { r with seen := r.seen.insert r.stack.depth top }

/-- The run in a new phase with the events so far; entering a rejection is recorded. -/
def enter (phase : Phase) (events : List Event) : Run × List Event :=
  let next := { r with phase := phase }
  match phase with
  | .rejected _ => (next, events ++ [next.event .reject])
  | _ => (next, events)

end Run

namespace Parser

variable (p : Parser)

/-- What to do about the current token: a shift goes before a reduce. -/
def decide (r : Run) : Except Fault Phase := do
  let state ← r.stack.peek
  match ← p.tables.shift.lookup state r.current.symbol with
  | some target => return .shifting target
  | none =>
    match p.tables.reduce? state with
    | none => return r.noAction state
    | some production =>
      if p.checksLookahead && !p.tables.admits production r.current.symbol then
        return .rejected (.lookaheadMismatch state production r.current.symbol)
      else return .reducing production

/-- Whether reducing to `head` by taking `needed` states, all but the lowest one, completes the input. -/
def completes (r : Run) (head needed : Nat) : Bool :=
  head == p.tables.start.toNat && r.current.isEnd && r.stack.depth == needed + 1
    && !r.stream.hasMore

/-- What it means that `below`, the state under the right-hand side, knows no way on for `head`: behind a
complete sentence there is more input, or the tables are wrong. -/
def strand (r : Run) (top below head : Nat) : Phase :=
  if head = p.tables.start.toNat then r.noAction top
  else .rejected (.missingGoto below head)

/-- Goes on to the state that the head of a reduced production leads to. -/
def proceed (r : Run) (production target : Nat) : Except Fault (Run × List Event) := do
  let r := r.push target
  let events := [r.event (.reduce production)]
  if r.isCycling p.tables.stateCount target then
    return r.enter (.rejected (.reduceCycle target production r.current.symbol)) events
  else
    let r := r.mark target
    return r.enter (← p.decide r) events

def reduce (r : Run) (production : Nat) : Except Fault (Run × List Event) := do
  let needed ← p.tables.length production
  let head ← p.tables.head production
  let available ← r.stack.available
  if available < needed then
    return r.enter (.rejected (.stackUnderflow production needed available)) []
  else if p.completes r head needed then
    let r := { r with stack := r.stack.lowest, phase := .accepted }
    return (r, [r.event .accept])
  else
    let top ← r.stack.peek
    let popped := { r with stack := ← r.stack.drop needed }
    let below ← popped.stack.peek
    match ← p.tables.goto.lookup below head with
    | none => return popped.enter (p.strand r top below head) []
    | some target => p.proceed popped production target

/-- One step: the next run and the events it records. A run that is done stays as it is. -/
def step (r : Run) : Except Fault (Run × List Event) :=
  match r.phase with
  | .reading => do
    let r := r.read
    return r.enter (← p.decide r) []
  | .shifting target =>
    let r := { r.push target with phase := .reading }
    .ok (r, [r.event .shift])
  | .reducing production => p.reduce r production
  | .accepted | .rejected _ => .ok (r, [])

end Parser

end ShiftReduce
