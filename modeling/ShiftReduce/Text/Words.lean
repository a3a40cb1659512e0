/-!
# Words, lines and columns

A text is cut at every character of a class. Words are the pieces between blanks that are not empty;
lines are the pieces between line feeds, where a line feed at the very end opens no further line. A column
of text has a width that counts characters, and a longer text is never cut.
-/

namespace ShiftReduce.Text

/-- The code points with the property `White_Space`, as inclusive ranges. -/
def blankRanges : List (Nat × Nat) :=
  [(0x09, 0x0D), (0x20, 0x20), (0x85, 0x85), (0xA0, 0xA0), (0x1680, 0x1680), (0x2000, 0x200A),
    (0x2028, 0x2029), (0x202F, 0x202F), (0x205F, 0x205F), (0x3000, 0x3000)]

/-- Whether a character separates words. -/
def isBlank (c : Char) : Bool :=
  blankRanges.any fun r => r.1 ≤ c.toNat && c.toNat ≤ r.2

/-- The pieces between the characters that satisfy `cut`; one more than there are such characters. -/
def pieces (cut : Char → Bool) : List Char → List (List Char)
  | [] => [[]]
  | c :: cs =>
    if cut c then [] :: pieces cut cs
    else match pieces cut cs with
      | [] => [[c]]
      | piece :: rest => (c :: piece) :: rest

/-- The longest runs of characters that are not blank. -/
def words (text : List Char) : List (List Char) :=
  (pieces isBlank text).filter (· ≠ [])

/-- The lines, without their line feeds. -/
def lines (text : List Char) : List (List Char) :=
  match (pieces (· = '\n') text).reverse with
  | [] :: rest => rest.reverse
  | all => all.reverse

/-- The text without the blanks at its two ends. -/
def trim (text : List Char) : List Char :=
  ((text.dropWhile isBlank).reverse.dropWhile isBlank).reverse

/-- The text with blanks after it up to `width` characters. -/
def padRight (width : Nat) (text : String) : String :=
  text ++ String.ofList (List.replicate (width - text.length) ' ')

/-- The pieces of `padRight` when each blank is a piece of its own. -/
def padded (width : Nat) (text : String) : List String :=
  text :: List.replicate (width - text.length) " "

/-- The words with one blank between every two. -/
def spaced (words : List String) : String :=
  " ".intercalate words

/-- The texts, each ended by a line feed. -/
def unlines (texts : List String) : String :=
  String.join (texts.map (· ++ "\n"))

end ShiftReduce.Text
