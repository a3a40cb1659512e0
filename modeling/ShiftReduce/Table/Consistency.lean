import ShiftReduce.Table.Basic

/-!
# Consistency

Tables are consistent when every number in them points inside of them: rows end, targets are states,
productions exist and the bit rows fit the terminals. A run over consistent tables cannot leave them.
-/

namespace ShiftReduce

/-- Which of the two tables of segments. -/
inductive SegmentKind
  | shift
  | goto
deriving DecidableEq

def SegmentKind.name : SegmentKind → String
  | .shift => "shift"
  | .goto => "goto"

/-- Why tables do not fit together. -/
inductive Inconsistency
  | noStates
  | noTerminals
  /-- the start is not the id of a nonterminal -/
  | badStart (start : Nat)
  /-- there is not one offset per state -/
  | offsetCount (kind : SegmentKind) (offsets states : Nat)
  /-- no end mark follows an offset -/
  | unterminated (kind : SegmentKind) (offset : Nat)
  /-- an entry names a wrong symbol or no state -/
  | badEntry (kind : SegmentKind) (symbol target : Nat)
  /-- a state reduces by a production that does not exist -/
  | unknownProduction (id : Nat)
  /-- heads and lengths are not equally many -/
  | lengthCount
  /-- the head of a production is not the id of a nonterminal -/
  | badHead (head : Nat)
  /-- the bit rows do not fit the terminals or the productions -/
  | badLookahead
deriving DecidableEq

def Inconsistency.message : Inconsistency → String
  | noStates => "no states"
  | noTerminals => "no terminals"
  | badStart start => s!"start symbol {start} is not a nonterminal"
  | offsetCount kind offsets states =>
    kind.name ++ s!" switch has {offsets} entries for {states} states"
  | unterminated kind offset => kind.name ++ s!" segment at {offset} is not terminated"
  | badEntry kind symbol target => kind.name ++ s!" entry ({symbol}, {target}) is out of range"
  | unknownProduction id => s!"reduce names unknown production {id}"
  | lengthCount => "production lhs and rhs_len lengths differ"
  | badHead head => s!"production lhs {head} is not a nonterminal"
  | badLookahead => "lookahead rows do not match the terminal count"

namespace Segments

variable (kind : SegmentKind) (states : Nat)

/-- Whether an end mark stands at the offset or behind it. -/
def terminated (s : Segments) (offset : Nat) : Bool :=
  (s.entries.drop offset).any (·.1 = absent)

def offsetFault? (s : Segments) (w : UInt32) : Option Inconsistency :=
  match present? w with
  | none => none
  | some offset => if s.terminated offset then none else some (.unterminated kind offset)

/-- What is wrong with an entry, when the symbols of the table satisfy `owns`. -/
def entryFault? (owns : Nat → Bool) (e : UInt32 × UInt32) : Option Inconsistency :=
  match present? e.1 with
  | none => none
  | some x =>
    if owns x && e.2.toNat < states then none else some (.badEntry kind x e.2.toNat)

/-- What is wrong with segments: the number of offsets, then an offset, then an entry. -/
def fault? (owns : Nat → Bool) (s : Segments) : Option Inconsistency :=
  if s.offsets.length ≠ states then some (.offsetCount kind s.offsets.length states)
  else
    (s.offsets.findSome? (s.offsetFault? kind)).or
      (s.entries.findSome? (entryFault? kind states owns))

end Segments

namespace Tables

variable (t : Tables)

/-- Whether the id is that of a nonterminal. -/
def isNonterminal (x : Nat) : Bool :=
  t.terminalCount.toNat ≤ x && x < t.symbolCount

/-- What is wrong with the numbers at the head of the tables. -/
def headFault? : Option Inconsistency :=
  if t.stateCount = 0 then some .noStates
  else if t.terminalCount = 0 then some .noTerminals
  else if t.isNonterminal t.start.toNat then none
  else some (.badStart t.start.toNat)

/-- What is wrong with the production of a state. -/
def reduceFault? (w : UInt32) : Option Inconsistency :=
  match present? w with
  | none => none
  | some p => if p < t.productionCount then none else some (.unknownProduction p)

/-- What is wrong with the lists on productions. -/
def productionFault? : Option Inconsistency :=
  if t.lengths.length ≠ t.productionCount then some .lengthCount
  else t.heads.findSome? fun w =>
    if t.isNonterminal w.toNat then none else some (.badHead w.toNat)

def lookaheadFault? : Option Inconsistency :=
  let width := wordsFor t.terminalCount.toNat
  if t.lookahead.wordsPerRow.toNat = width
      && t.lookahead.words.length = width * t.productionCount then none
  else some .badLookahead

/-- The first thing that is wrong with the tables. -/
def inconsistency? : Option Inconsistency :=
  t.headFault?
    |>.or (t.shift.fault? .shift t.stateCount t.isTerminal)
    |>.or (t.goto.fault? .goto t.stateCount t.isNonterminal)
    |>.or (t.reduce.findSome? t.reduceFault?)
    |>.or t.productionFault?
    |>.or t.lookaheadFault?

/-- Everything in the tables points inside of them. -/
def Consistent : Prop :=
  t.inconsistency? = none

instance : Decidable t.Consistent :=
  inferInstanceAs (Decidable (_ = _))

end Tables

end ShiftReduce
