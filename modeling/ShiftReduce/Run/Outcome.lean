import ShiftReduce.Notice
import ShiftReduce.Token.Basic

/-!
# How a run proceeds and ends

The phases of a run, the reasons for a rejection, and the events that are recorded.
-/

namespace ShiftReduce

/-- Why a run is rejected. -/
inductive Rejection
  /-- the state neither shifts the symbol nor reduces -/
  | noAction (state symbol : Nat) (text : String)
  /-- the production of the state does not reduce on the symbol -/
  | lookaheadMismatch (state production symbol : Nat)
  /-- the state below a reduced right-hand side does not know the head -/
  | missingGoto (state nonterminal : Nat)
  /-- the stack holds fewer states than the right-hand side is long -/
  | stackUnderflow (production needed available : Nat)
  /-- a reduce came back to a stack it had made before on the same token, or grew past all bounds -/
  | reduceCycle (state production symbol : Nat)
deriving DecidableEq

namespace Rejection

def message : Rejection → String
  | noAction state symbol text =>
    s!"no action defined in state {state} for symbol {symbol} (`{text}`)"
  | lookaheadMismatch state production symbol =>
    s!"production {production} does not reduce on symbol {symbol} in state {state}"
  | missingGoto state nonterminal =>
    s!"no goto defined in state {state} for nonterminal {nonterminal}"
  | stackUnderflow production needed available =>
    s!"reducing production {production} pops {needed} states but the stack holds {available}"
  | reduceCycle state production symbol =>
    s!"production {production} reduced into state {state} again on symbol {symbol} "
      ++ "without consuming input"

/-- Whether the tables or a grammar that derives itself are to blame, and not the input. -/
def isInternal : Rejection → Bool
  | noAction .. | lookaheadMismatch .. => false
  | missingGoto .. | stackUnderflow .. | reduceCycle .. => true

def notice (r : Rejection) : Notice :=
  .rejected r.message r.isInternal

end Rejection

/-- What a run does next. -/
inductive Phase
  | reading
  /-- the current token is to be consumed, going to this state -/
  | shifting (target : Nat)
  | reducing (production : Nat)
  | accepted
  | rejected (why : Rejection)
deriving DecidableEq

namespace Phase

/-- Whether nothing is left to do. -/
def isDone : Phase → Bool
  | accepted | rejected _ => true
  | reading | shifting _ | reducing _ => false

end Phase

/-- An action as it is recorded. -/
inductive Action
  | shift
  | reduce (production : Nat)
  | accept
  | reject
deriving DecidableEq

/-- A recorded action: the current token, and the number of states on the stack afterwards. -/
structure Event where
  symbol : Nat
  text : String
  action : Action
  depth : Nat
deriving DecidableEq

end ShiftReduce
