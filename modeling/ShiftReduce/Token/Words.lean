import ShiftReduce.Text.Words
import ShiftReduce.Token.Basic

/-!
# Words as tokens

Text read as a stream of tokens: each word has to be the name of a terminal. The end terminal stands
for the end of the text and cannot be written.
-/

namespace ShiftReduce

/-- A word that is not the name of a terminal, with its place among the words, from 0. -/
structure UnknownWord where
  word : String
  position : Nat
deriving DecidableEq

def UnknownWord.message (e : UnknownWord) : String :=
  s!"`{e.word}` at word {e.position} is not a terminal"

namespace Vocabulary

variable (v : Vocabulary)

/-- The token that a word stands for. -/
def token? (word : String) : Option Token :=
  match v.lookup? word with
  | some x => if x ≠ endId && v.isTerminal x then some ⟨x, word⟩ else none
  | none => none

/-- The tokens of words, the first of which has the place `position`. -/
def tokensFrom (position : Nat) : List String → Except UnknownWord (List Token)
  | [] => .ok []
  | word :: words =>
    match v.token? word with
    | none => .error ⟨word, position⟩
    | some t => (tokensFrom (position + 1) words).map (t :: ·)

/-- The stream of the words of a text, or the first word that is no terminal. -/
def scan (text : String) : Except UnknownWord TokenStream :=
  (v.tokensFrom 0 ((Text.words text.toList).map String.ofList)).map TokenStream.ofTokens

end Vocabulary

end ShiftReduce
