import ShiftReduce.Grammar.Vocabulary

/-!
# Tokens

A token is a symbol with the text it was read from. A stream hands out its tokens in order and then
the end token for ever.
-/

namespace ShiftReduce

/-- A symbol of the input and its text. -/
structure Token where
  symbol : Nat
  text : String
deriving DecidableEq

namespace Token

/-- The token that stands for the end of the input. -/
def eof : Token :=
  ⟨endId, endName⟩

def isEnd (t : Token) : Bool :=
  t.symbol == endId

end Token

structure TokenStream where
  pending : List Token
deriving DecidableEq

namespace TokenStream

/-- The stream of some tokens; one end token behind them is left out. -/
def ofTokens (ts : List Token) : TokenStream :=
  if ts.getLast?.any Token.isEnd then ⟨ts.dropLast⟩ else ⟨ts⟩

/-- The stream of some symbols, each with its id as its text. -/
def ofSymbols (xs : List Nat) : TokenStream :=
  ofTokens (xs.map fun x => ⟨x, toString x⟩)

variable (s : TokenStream)

def hasMore : Bool :=
  !s.pending.isEmpty

/-- The next token and the stream behind it. -/
def next : Token × TokenStream :=
  match s.pending with
  | [] => (.eof, s)
  | t :: ts => (t, ⟨ts⟩)

end TokenStream

end ShiftReduce
