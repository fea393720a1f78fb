import Epistemic.Text.Blank
/-!
# Tokens

A text is cut into parentheses, brackets and the words between them and white space.
-/
namespace Epistemic.Source

/-- The smallest unit of a planning file. -/
inductive Token where
  | openList
  | closeList
  | openAgents
  | closeAgents
  | word (text : String)
  deriving DecidableEq, Repr

/-- The token that a mark is by itself. -/
def mark? (c : Char) : Option Token :=
  if c == '(' then some .openList
  else if c == ')' then some .closeList
  else if c == '[' then some .openAgents
  else if c == ']' then some .closeAgents
  else none

/-- The word of which the letters have been collected backwards, if there is one. -/
def finishedWord (letters : List Char) : List Token :=
  if letters.isEmpty then [] else [.word (String.ofList letters.reverse)]

/-- Cuts a text into tokens, where `letters` are those of a word that has begun, the last one first. -/
def tokensFrom : (letters : List Char) → List Char → List Token
  | letters, [] => finishedWord letters
  | letters, c :: cs =>
    match mark? c with
    | some t => finishedWord letters ++ t :: tokensFrom [] cs
    | none =>
      if Text.isBlank c then finishedWord letters ++ tokensFrom [] cs
      else tokensFrom (c :: letters) cs

/-- The tokens of a text. -/
def tokens (cs : List Char) : List Token := tokensFrom [] cs

end Epistemic.Source
