import Epistemic.Fault
import Epistemic.Tree
/-!
# Literals

Preconditions, initial facts and goals are conjunctions of literals. `(not a)` is the negative literal of `a`; a
negation that stands behind a belief operator is drawn into the formula, where a hyphen before the predicate marks it.
-/
namespace Epistemic

/-- The literals of a conjunction, by sign. -/
structure Literals where
  positive : List Tree := []
  negative : List Tree := []

namespace Literals

/-- Whether a tree is a belief operator. -/
def isOperator (t : Tree) : Bool := t.hasBelief || t.hasCommonBelief

/-- Draws the negation behind an operator into the formula. -/
def drawIn (operator : Tree) (formula : Tree) (inner : List Tree) : Except Fault Tree :=
  match inner with
  | [] => .error .missingItem
  | keyword :: rest =>
    if keyword.isWord "not" then
      match rest with
      | [] => .error .missingItem
      | atom :: _ =>
        match atom.items with
        | [] => .error (.refused .emptyNegation)
        | .list _ :: _ => .error .listForName
        | .word name :: args => .ok (.list (operator :: .word ("-" ++ name) :: args))
    else .ok formula

/-- The formula with the negation behind its operator drawn in, if it has one. -/
def normalForm (formula : Tree) : Except Fault Tree :=
  match formula.items with
  | [] => .error .missingItem
  | head :: rest =>
    if isOperator head then
      match rest with
      | [] => .error .missingItem
      | .list inner :: _ => drawIn head formula inner
      | .word _ :: _ => .ok formula
    else .ok formula

/-- Adds one literal. -/
def add (place : String) (ls : Literals) (formula : Tree) : Except Fault Literals :=
  match normalForm formula with
  | .error e => .error e
  | .ok formula =>
    match formula.items with
    | [] => .error .missingItem
    | head :: rest =>
      if head.isWord "not" then
        match rest with
        | [atom] => .ok { ls with negative := ls.negative ++ [atom] }
        | _ => .error (.refused (.negation place))
      else .ok { ls with positive := ls.positive ++ [formula] }

/-- Adds literals up to the first that is none. -/
def addAll (place : String) : List Tree → Literals → Literals × Option Fault
  | [], ls => (ls, none)
  | t :: ts, ls =>
    match ls.add place t with
    | .ok ls => addAll place ts ls
    | .error e => (ls, some e)

/-- Literals as far as they were read, with what was left of the conjunction. -/
structure Split where
  literals : Literals
  left : Tree
  fault : Option Fault := none

/-- Adds the literals of a conjunction, or of a single literal. -/
def split (place : String) (ls : Literals) : Tree → Split
  | .word w => { literals := ls, left := .word w, fault := some (.refused (.notAList place)) }
  | .list [] => { literals := ls, left := .list [], fault := some .missingItem }
  | .list (head :: rest) =>
    if head.isWord "and" then
      let (literals, fault) := addAll place rest ls
      { literals, left := .list rest, fault }
    else
      let (literals, fault) := addAll place [.list (head :: rest)] ls
      { literals, left := .list (head :: rest), fault }

end Literals
end Epistemic
