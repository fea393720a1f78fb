import Epistemic.Text.Blank
/-!
# Parts of a text

Finding a piece of a text, replacing it, and taking off a pair of marks. Texts are lists of characters here.
-/
namespace Epistemic.Text

/-- Whether `piece` stands somewhere in the text. -/
def occurs (piece : List Char) : List Char → Bool
  | [] => piece.isEmpty
  | c :: cs => piece.isPrefixOf (c :: cs) || occurs piece cs

/-- The text before and after the first place where `piece` stands. -/
def splitFirst? (piece : List Char) : List Char → Option (List Char × List Char)
  | [] => if piece.isEmpty then some ([], []) else none
  | c :: cs =>
    if piece.isPrefixOf (c :: cs) then some ([], (c :: cs).drop piece.length)
    else (splitFirst? piece cs).map fun (before, after) => (c :: before, after)

/-- The text before and after the last place where `piece` stands. -/
def splitLast? (piece : List Char) : List Char → Option (List Char × List Char)
  | [] => if piece.isEmpty then some ([], []) else none
  | c :: cs =>
    match splitLast? piece cs with
    | some (before, after) => some (c :: before, after)
    | none =>
      if piece.isPrefixOf (c :: cs) then some ([], (c :: cs).drop piece.length) else none

/-- Replaces the non-overlapping occurrences of `piece`, from the left, after passing over `skip` characters. -/
def replaceFrom (piece new : List Char) : (skip : Nat) → List Char → List Char
  | _, [] => []
  | skip + 1, _ :: cs => replaceFrom piece new skip cs
  | 0, c :: cs =>
    if piece.isPrefixOf (c :: cs) then new ++ replaceFrom piece new (piece.length - 1) cs
    else c :: replaceFrom piece new 0 cs

/-- The text with every occurrence of the non-empty `piece` replaced. -/
def replaceAll (piece new cs : List Char) : List Char := replaceFrom piece new 0 cs

/-- The runs between separators; there is always one more than there are separators. -/
def splitOn (isSeparator : Char → Bool) : List Char → List (List Char)
  | [] => [[]]
  | c :: cs =>
    if isSeparator c then [] :: splitOn isSeparator cs
    else match splitOn isSeparator cs with
      | run :: runs => (c :: run) :: runs
      | [] => [[c]]

/-- Maximal stretches of characters on which `inside` holds are given to `f`, and the others are kept. -/
def mapStretches (inside : Char → Bool) (f : List Char → List Char) : List Char → List Char → List Char
  | stretch, [] => f stretch.reverse
  | stretch, c :: cs =>
    if inside c then mapStretches inside f (c :: stretch) cs
    else f stretch.reverse ++ c :: mapStretches inside f [] cs

/-- What stands around and between the first `opening` and the last `closing` of a stretch, if something stands
between them. -/
def bracketed? (opening closing cs : List Char) : Option (List Char × List Char × List Char) := do
  let (before, rest) ← splitFirst? opening cs
  let (inner, after) ← splitLast? closing rest
  if inner.isEmpty then none else some (before, inner, after)

/-- Takes the first `opening` and the last `closing` off each line, where something stands between them. -/
def unwrapLines (opening closing cs : List Char) : List Char :=
  mapStretches (· != '\n')
    (fun line => match bracketed? opening closing line with
      | some (before, inner, after) => before ++ inner ++ after
      | none => line) [] cs

/-- Replaces, in each run without white space, all from the first `opening` to the last `closing`, where something
stands between them; the replacement may use what it replaces. -/
def replaceMarked (opening closing : List Char) (new : List Char → List Char) (cs : List Char) : List Char :=
  mapStretches (fun c => !isBlank c)
    (fun run => match bracketed? opening closing run with
      | some (before, inner, after) => before ++ new (opening ++ inner ++ closing) ++ after
      | none => run) [] cs

end Epistemic.Text
