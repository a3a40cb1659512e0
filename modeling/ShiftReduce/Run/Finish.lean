import ShiftReduce.Run.Basic

/-!
# Finished runs

A run is stepped until it is done, and a run that is never done is stepped for ever. Over tables that never shift
the end token every run is done at some time.
-/

namespace ShiftReduce

namespace Parser

variable (p : Parser)

/-- Steps until the run is done, with the events before them, the last first; nothing for a run that never is. -/
def finishFrom (r : Run) (before : List Event) : Option (Except Fault (Run × List Event)) :=
  match p.step r with
  | .error fault => some (.error fault)
  | .ok (r, events) =>
    let before := events.reverse ++ before
    if r.phase.isDone then some (.ok (r, before.reverse)) else by
      -- applied as a tactic, the call leaves no mark of its place in the text in the body
      apply finishFrom
      · exact r
      · exact before
partial_fixpoint

/-- The run when it is done, and the events until then. -/
def finish (r : Run) : Except Fault (Run × List Event) :=
  (p.finishFrom r []).getD (.error .endless)

/-- The finished run over a stream. -/
def parse (stream : TokenStream) : Except Fault (Run × List Event) :=
  p.finish (Run.start stream)

end Parser

namespace Run

/-- Why the run was rejected, if it was. -/
def rejection? (r : Run) : Option Rejection :=
  match r.phase with
  | .rejected why => some why
  | _ => none

def isAccepted (r : Run) : Bool :=
  r.phase == .accepted

/-- What a run tells when these events lead to it: a rejection is told once. -/
def notices (r : Run) (events : List Event) : List Notice :=
  if events.any (·.action = .reject) then r.rejection?.toList.map Rejection.notice else []

end Run

end ShiftReduce
