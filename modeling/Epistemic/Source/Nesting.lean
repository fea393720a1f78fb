import Epistemic.Source.Token
import Epistemic.Tree
/-!
# From tokens to a tree

Parentheses become lists. The agents between brackets become one word, the operator: `B(a,` for one agent and
`C(a,b,` for several.
-/
namespace Epistemic.Source

/-- Why a file is not one tree. -/
inductive NestingFault where
  | missingOpen
  | missingClose
  | malformed
  deriving DecidableEq, Repr

/-- The text of a fault. -/
def NestingFault.message : NestingFault → String
  | missingOpen => "Missing open parentheses"
  | missingClose => "Missing close parentheses"
  | malformed => "Malformed expression"

/-- A tree in the making: the lists that are open around the current one, the items of the current one, the last item
first, and the operator that was begun last. -/
structure Nest where
  outer : List (List Tree) := []
  items : List Tree := []
  /-- Whether words are agents. -/
  inAgents : Bool := false
  /-- Whether the next agent is the first of its operator. -/
  firstAgent : Bool := true
  /-- Whether more than one agent has been seen since an operator was last finished. -/
  several : Bool := false
  /-- The operator so far. -/
  operator : String := ""

namespace Nest

/-- Adds an item to the current list. -/
def push (n : Nest) (t : Tree) : Nest := { n with items := t :: n.items }

/-- Takes one token. -/
def step (n : Nest) : Token → Except NestingFault Nest
  | .openList => .ok { n with outer := n.items :: n.outer, items := [] }
  | .closeList =>
    match n.outer with
    | [] => .error .missingOpen
    | around :: outer => .ok { n with outer, items := .list n.items.reverse :: around }
  | .openAgents => .ok { n with firstAgent := true, inAgents := true, operator := "B(" }
  | .closeAgents =>
    let text := n.operator ++ ","
    let text := if n.several then
        String.ofList (Text.replaceAll "B(".toList "C(".toList text.toList) else text
    .ok { n with inAgents := false, operator := text, several := false, items := .word text :: n.items }
  | .word w =>
    if n.inAgents then
      .ok { n with
        several := n.several || !n.firstAgent
        operator := (if n.firstAgent then n.operator else n.operator ++ ",") ++ w
        firstAgent := false }
    else .ok (n.push (.word w))

/-- Takes tokens in order. -/
def run : List Token → Nest → Except NestingFault Nest
  | [], n => .ok n
  | t :: ts, n =>
    match n.step t with
    | .ok n => run ts n
    | .error e => .error e

/-- The tree, if all lists are closed and there is exactly one. -/
def finish (n : Nest) : Except NestingFault Tree :=
  match n.outer, n.items with
  | _ :: _, _ => .error .missingClose
  | [], [t] => .ok t
  | [], _ => .error .malformed

end Nest

/-- The tree that tokens make. -/
def nest (ts : List Token) : Except NestingFault Tree :=
  match Nest.run ts {} with
  | .ok n => n.finish
  | .error e => .error e

end Epistemic.Source
