import Epistemic.Source.Nesting
import Epistemic.Source.Rules
import Epistemic.Text.Lower
/-!
# Reading a planning file into a tree

Comments go, all is put into lower case, the rules of writing are undone, and the tokens are nested.
-/
namespace Epistemic

/-- How a domain says who observes an action: on two fixed levels, fully and partially, or in groups of its own. -/
inductive Dialect where
  | levels
  | groups
  deriving DecidableEq, Repr

namespace Source

/-- The three ways to end a line become one. -/
def unifyNewlines : List Char → List Char
  | [] => []
  | '\r' :: '\n' :: cs => '\n' :: unifyNewlines cs
  | '\r' :: cs => '\n' :: unifyNewlines cs
  | c :: cs => c :: unifyNewlines cs

/-- Takes away what follows a semicolon, up to the end of the line. -/
def stripCommentsFrom : (inComment : Bool) → List Char → List Char
  | _, [] => []
  | inComment, c :: cs =>
    if c == '\n' then c :: stripCommentsFrom false cs
    else if inComment || c == ';' then stripCommentsFrom true cs
    else c :: stripCommentsFrom false cs

/-- The text without its comments. -/
def stripComments (cs : List Char) : List Char := stripCommentsFrom false cs

/-- The text without comments, in lower case. -/
def plain (cs : List Char) : List Char := Text.lower (stripComments cs)

/-- The text with the rules of writing undone. -/
def normalize (dialect : Dialect) (cs : List Char) : List Char :=
  let cs := (pass agentType cs).1
  let cs := match dialect with
    | .levels => cs
    | .groups => (pass includeDirective cs).1
  exhaust operatorParentheses (exhaust doubleParentheses cs)

/-- The tree that a text is read into. -/
def scan (dialect : Dialect) (text : String) : Except NestingFault Tree :=
  nest (tokens (normalize dialect (plain (unifyNewlines text.toList))))

/-- The domain file that a problem file asks for: the name in its first include directive, or that directive itself
when it does not hold one name. -/
def domainFile? (text : String) : Option String :=
  (firstInclude? (plain (unifyNewlines text.toList))).map fun directive =>
    String.ofList (pass includedName directive).1

end Source
end Epistemic
