import ShiftReduce.Run.Outcome
import ShiftReduce.Text.Words

/-!
# The text trace of a run

One line per token: its symbol in a column of three and its text in a column of sixteen, then a mark for
each reduce and for the shift. The end of the run stands on a line of its own. The trace is written
piece by piece to a writer that may fail; after the first failure nothing more is written.
-/

namespace ShiftReduce

/-- Why a trace is not written. -/
inductive WriteError
  | diskFull
  | flushFailed
deriving DecidableEq

def WriteError.message : WriteError → String
  | diskFull => "disk full"
  | flushFailed => "flush failed"

/-- A writer that takes text up to a number of bytes, if there is a limit. -/
structure Writer where
  limit : Option Nat := none
  failsFlush : Bool := false
  written : String := ""
deriving DecidableEq

namespace Writer

/-- Writes a text whole, or fails and writes nothing. -/
def write (w : Writer) (text : String) : Except WriteError Writer :=
  let written := w.written ++ text
  match w.limit with
  | some limit =>
    if limit < written.utf8ByteSize then .error .diskFull else .ok { w with written := written }
  | none => .ok { w with written := written }

/-- The text, if it can be flushed. -/
def flush (w : Writer) : Except WriteError String :=
  if w.failsFlush then .error .flushFailed else .ok w.written

end Writer

namespace Event

/-- The pieces that the mark of an action is written in. -/
def mark (e : Event) : List String :=
  match e.action with
  | .shift => ["[shift]\n"]
  | .reduce production => ["[reduce ", toString production, "]"]
  | .accept => ["[accept]\n"]
  | .reject => ["[reject]\n"]

/-- The pieces of the columns that open the line of a token. -/
def columns (e : Event) : List String :=
  Text.padded 3 (toString e.symbol) ++ " " :: Text.padded 16 e.text

/-- Whether the event stands on the line of its token; that of an end has a line of its own. -/
def isOnLine (e : Event) : Bool :=
  match e.action with
  | .shift | .reduce _ => true
  | .accept | .reject => false

/-- What stands before the mark: the columns, when no line is open for the token, or the end of the
line that is open when the run ends. -/
def lead (e : Event) (isOpen : Bool) : List String :=
  if e.isOnLine then
    if isOpen then [] else e.columns
  else
    if isOpen then ["\n"] else []

/-- Whether the line stays open after the event. -/
def keepsOpen (e : Event) : Bool :=
  match e.action with
  | .reduce _ => true
  | .shift | .accept | .reject => false

end Event

/-- A trace being written: the writer, whether a line is open, and the first failure. -/
structure Trace where
  writer : Writer
  isOpen : Bool := false
  failure : Option WriteError := none
deriving DecidableEq

namespace Trace

def write (t : Trace) (text : String) : Trace :=
  match t.failure with
  | some _ => t
  | none =>
    match t.writer.write text with
    | .ok w => { t with writer := w }
    | .error e => { t with failure := some e }

/-- The trace with a note on whether a line is open, unless a write has failed. -/
def note (t : Trace) (isOpen : Bool) : Trace :=
  match t.failure with
  | some _ => t
  | none => { t with isOpen := isOpen }

/-- Writes pieces one after the other, then notes whether a line is open. -/
def print (t : Trace) (pieces : List String) (isOpen : Bool) : Trace :=
  (pieces.foldl write t).note isOpen

def record (t : Trace) (e : Event) : Trace :=
  (t.print (e.lead t.isOpen) e.isOnLine).print e.mark e.keepsOpen

/-- The text of the trace, or the first failure. -/
def finish (t : Trace) : Except WriteError String :=
  match t.failure with
  | some e => .error e
  | none => t.writer.flush

/-- Writes events to a writer. -/
def write? (writer : Writer) (events : List Event) : Except WriteError String :=
  (events.foldl record ⟨writer, false, none⟩).finish

/-- The text of events from an open or a new line on. -/
def textFrom (isOpen : Bool) : List Event → String
  | [] => ""
  | e :: es => String.join (e.lead isOpen ++ e.mark) ++ textFrom e.keepsOpen es

def text (events : List Event) : String :=
  textFrom false events

end Trace

end ShiftReduce
