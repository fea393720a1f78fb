import Epistemic.Source.Replacement
import Epistemic.Text.Part
/-!
# The rules of writing

Four liberties that a planning file may take, each undone by a rule: the type written behind the agents of a belief
operator, parentheses around parentheses, parentheses around what an operator speaks of, and the directive that names
the domain file.
-/
namespace Epistemic.Source

open Text (isBlank splitLast?)

/-- The text after an agent type that closes an operator: `-agent`, blanks and the closing bracket. -/
def agentTypeEnd? (cs : List Char) : Option (List Char) :=
  if "-agent".toList.isPrefixOf cs then
    match (cs.drop 6).dropWhile isBlank with
    | ']' :: rest => some rest
    | _ => none
  else none

/-- The last place before the next opening bracket where an agent type closes an operator. -/
def lastAgentType? : List Char → Option (List Char × List Char)
  | [] => none
  | c :: cs =>
    if c == '[' then none
    else match lastAgentType? cs with
      | some (before, rest) => some (c :: before, rest)
      | none => (agentTypeEnd? (c :: cs)).map fun rest => ([], rest)

/-- The agents of an operator are written without their type. -/
def agentType : Rule
  | '[' :: cs =>
    match lastAgentType? cs with
    | some (c :: before, rest) => some ('[' :: c :: before ++ [']'], rest)
    | _ => none
  | _ => none

/-- Whether a character is a parenthesis. -/
def isParenthesis (c : Char) : Bool := c == '(' || c == ')'

/-- Two pairs of parentheses around a text without any are taken away. -/
def doubleParentheses : Rule
  | '(' :: cs =>
    match cs.dropWhile isBlank with
    | '(' :: cs =>
      let inner := cs.takeWhile (!isParenthesis ·)
      match cs.dropWhile (!isParenthesis ·) with
      | ')' :: cs =>
        match cs.dropWhile isBlank with
        | ')' :: rest => if inner.isEmpty then none else some (inner, rest)
        | _ => none
      | _ => none
    | _ => none
  | _ => none

/-- What stands before the last closing parenthesis that comes before the next opening one, and what follows it. -/
def closed? (cs : List Char) : Option (List Char × List Char) :=
  let reach := cs.takeWhile (· != '(')
  match splitLast? [')'] reach with
  | some (c :: inner, after) => some (c :: inner, after ++ cs.dropWhile (· != '('))
  | _ => none

/-- The last closing bracket before the next opening one behind which a parenthesis can be taken away: the text before
the bracket, the text in the parentheses, and the rest. -/
def lastOperator? : List Char → Option (List Char × List Char × List Char)
  | [] => none
  | c :: cs =>
    if c == '[' then none
    else match lastOperator? cs with
      | some (before, inner, rest) => some (c :: before, inner, rest)
      | none =>
        match c, cs with
        | ']', '(' :: cs => (closed? cs).map fun (inner, rest) => ([], inner, rest)
        | _, _ => none

/-- The parentheses behind an operator are taken away when they hold no others. -/
def operatorParentheses : Rule
  | '[' :: cs =>
    match lastOperator? cs with
    | some (c :: before, inner, rest) => some ('[' :: c :: before ++ ']' :: inner, rest)
    | _ => none
  | _ => none

/-- The text behind the colon of an include directive. -/
def includeHead? : List Char → Option (List Char)
  | '\x7b' :: cs =>
    let cs := cs.dropWhile isBlank
    if "include".toList.isPrefixOf cs then
      match (cs.drop 7).dropWhile isBlank with
      | ':' :: rest => some rest
      | _ => none
    else none
  | _ => none

/-- What an include directive names, up to the last closing brace of the line, and the rest. -/
def includeBody? (cs : List Char) : Option (List Char × List Char) := do
  let body ← includeHead? cs
  match splitLast? ['\x7d'] (body.takeWhile (· != '\n')) with
  | some (c :: inner, after) => some (c :: inner, after ++ body.dropWhile (· != '\n'))
  | _ => none

/-- An include directive is taken away. -/
def includeDirective : Rule := fun cs => (includeBody? cs).map fun (_, rest) => ([], rest)

/-- The first include directive of a text, with its braces. -/
def firstInclude? : List Char → Option (List Char)
  | [] => none
  | c :: cs =>
    match includeBody? (c :: cs) with
    | some (_, rest) => some ((c :: cs).take ((c :: cs).length - rest.length))
    | none => firstInclude? cs

/-- An include directive of one name is replaced by the name. -/
def includedName : Rule := fun cs =>
  match includeHead? cs with
  | none => none
  | some body =>
    let body := body.dropWhile isBlank
    let name := body.takeWhile (!isBlank ·)
    let after := body.dropWhile (!isBlank ·)
    match name, after.dropWhile isBlank with
    | [], _ => none
    | _ :: _, '\x7d' :: rest => some (name, rest)
    | _ :: _, _ =>
      match splitLast? ['\x7d'] name with
      | some (c :: inner, rest) => some (c :: inner, rest ++ after)
      | _ => none

end Epistemic.Source
