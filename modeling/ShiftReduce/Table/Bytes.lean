/-!
# Bytes

Numbers as bytes, the lowest byte first, and readers that take them off the front of a list of bytes.
A reader that finds too few bytes gives nothing.
-/

namespace ShiftReduce.Bytes

/-- The lowest `count` bytes of a number, lowest first. -/
def ofNat (count n : Nat) : List UInt8 :=
  match count with
  | 0 => []
  | count + 1 => UInt8.ofNat (n % 256) :: ofNat count (n / 256)

/-- The number with these bytes, lowest first. -/
def toNat : List UInt8 → Nat
  | [] => 0
  | b :: bs => b.toNat + 256 * toNat bs

def ofWord (w : UInt32) : List UInt8 :=
  ofNat 4 w.toNat

def ofLongWord (w : UInt64) : List UInt8 :=
  ofNat 8 w.toNat

def ofWords (ws : List UInt32) : List UInt8 :=
  ws.flatMap ofWord

/-- Takes a value off the front of a list of bytes. -/
abbrev Reader := StateT (List UInt8) Option

/-- The next `count` bytes. -/
def take : Nat → Reader (List UInt8)
  | 0, bytes => some ([], bytes)
  | _ + 1, [] => none
  | count + 1, b :: bytes =>
    match take count bytes with
    | some (taken, rest) => some (b :: taken, rest)
    | none => none

def word : Reader UInt32 := do
  return UInt32.ofNat (toNat (← take 4))

def longWord : Reader UInt64 := do
  return UInt64.ofNat (toNat (← take 8))

/-- The next two words. -/
def wordPair : Reader (UInt32 × UInt32) := do
  let first ← word
  let second ← word
  return (first, second)

/-- The next `count` values. -/
def many {α : Type} (reader : Reader α) : Nat → Reader (List α)
  | 0 => pure []
  | count + 1 => do
    let value ← reader
    let values ← many reader count
    return value :: values

end ShiftReduce.Bytes
