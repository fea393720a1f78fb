import Epistemic.Effect.Guard
import Epistemic.MAp.Formula
import Epistemic.Work
/-!
# Objects for variables

Objects are put in place of variables, first in the agents of belief operators and then in the words of the formula.
Every operator whose agents are variables receives the first object. An operator of several agents that still names a
variable afterwards is written with the first object as its only agent.

Formulas that are filled in are recorded as fluents, if they are atoms without a negation.
-/
namespace Epistemic

/-- Variables and the objects that stand for them. -/
structure Assignment where
  vars : List Tree
  objects : List Tree

namespace Assignment

/-- The first object, as a name. -/
def firstObject (σ : Assignment) : Except Fault String :=
  match σ.objects with
  | [] => .error .missingItem
  | .list _ :: _ => .error .listForName
  | .word o :: _ => .ok o

/-- Exchanges the first item that is the same as `old`. -/
def exchange (old new : Tree) (items : List Tree) : Except Fault (List Tree) :=
  if items.contains old then .ok (items.set (items.idxOf old) new) else .error .exchangedBefore

/-- The word inside an operator that `mark` opens. -/
def insideOperator (mark : String) (w : String) : String :=
  String.ofList (Text.unwrapLines mark.toList [','] w.toList)

/-- The agents of an operator of several agents that are followed by another. -/
def agentsBeforeLast (w : String) : List String :=
  let runs := Text.splitOn (· == ',') (insideOperator "C(" w).toList
  (runs.dropLast.filter (!·.isEmpty)).map String.ofList

/-- Puts the first object into an operator of one agent, once for each variable that is its agent. -/
def fillBelief (σ : Assignment) (w : String) (items : List Tree) : Except Fault (List Tree) :=
  σ.vars.foldlM (fun items v =>
    if v.isWord (insideOperator "B(" w) then do
      let o ← σ.firstObject
      exchange (.word w) (.word ("B(" ++ o ++ ",")) items
    else .ok items) items

/-- Does something for each variable that is one of the agents before the last. -/
def forEachAgent (σ : Assignment) (w : String) (f : String → List Tree → Except Fault (List Tree))
    (items : List Tree) : Except Fault (List Tree) :=
  (agentsBeforeLast w).foldlM (fun items agent =>
    σ.vars.foldlM (fun items v => if v.isWord agent then f agent items else .ok items) items) items

/-- Puts the first object in place of an agent in the text of an operator of several agents. -/
def fillCommonBelief (σ : Assignment) (w agent : String) (items : List Tree) : Except Fault (List Tree) :=
  if items.contains (.word w) then do
    let o ← σ.firstObject
    exchange (.word w) (.word (String.ofList (Text.replaceAll agent.toList o.toList w.toList))) items
  else .error .exchangedBefore

/-- Makes the first object the only agent of an operator of several agents. -/
def collapseCommonBelief (σ : Assignment) (w : String) (items : List Tree) : Except Fault (List Tree) := do
  let o ← σ.firstObject
  exchange (.word w) (.word ("C([" ++ o ++ "],")) items

/-- What stands behind the operator at a place is filled in by `inner`, if it is a list. -/
def fillBehind {σ : Type} (inner : Tree → Work σ Tree) (place : Nat) (items : List Tree) : Work σ (List Tree) :=
  match items[place + 1]? with
  | none => Work.stop .missingItem
  | some (.word _) => pure items
  | some (.list xs) => do
    return items.set (place + 1) (← inner (.list xs))

/-- Fills in the operator at a place, and what stands behind it. -/
def fillOperator {τ : Type} (σ : Assignment) (inner : Tree → Work τ Tree) (items : List Tree) (place : Nat) :
    Work τ (List Tree) := do
  match items[place]? with
  | none => return items
  | some t =>
    if t.hasBelief then
      match t with
      | .list _ => Work.stop .listForName
      | .word w => fillBehind inner place (← Work.ofExcept (σ.fillBelief w items))
    else if t.hasCommonBelief then
      match t with
      | .list _ => Work.stop .listForName
      | .word w => fillBehind inner place (← Work.ofExcept (σ.forEachAgent w (σ.fillCommonBelief w) items))
    else return items

/-- Collapses the operator of several agents at a place. -/
def collapseOperator (σ : Assignment) (items : List Tree) (place : Nat) : Except Fault (List Tree) :=
  match items[place]? with
  | none => .ok items
  | some t =>
    if t.hasCommonBelief then
      match t with
      | .list _ => .error .listForName
      | .word w => σ.forEachAgent w (fun _ => σ.collapseCommonBelief w) items
    else .ok items

/-- Puts the objects in place of the variables among the items, one variable after the other. A variable is exchanged
until it is gone, so one that stands for itself and is there is refused: exchanging it would never end. -/
def fillItems : (vars objects : List Tree) → List Tree → Except Fault (List Tree)
  | [], _, items => .ok items
  | v :: vs, objects, items =>
    if items.contains v then
      match objects with
      | [] => .error .missingItem
      | o :: os =>
        if o == v then .error (.refused (.standsForItself v.shown))
        else fillItems vs os (items.map fun t => if t == v then o else t)
    else fillItems vs objects.tail items

end Assignment

/-- The fluents that were met. -/
abbrev Fluents := List String

/-- Whether a formula is an atom without a negation. -/
def isFluentName (text : String) : Bool :=
  let t := Tree.word text
  !t.hasBelief && !t.hasCommonBelief && !t.mentions "-"

/-- Records the name of a formula, if it is a fluent. -/
def recordFluent (items : List Tree) : Work Fluents Unit := do
  let text ← Work.ofExcept (MAp.formula (.list items))
  if isFluentName text then
    modify (text :: ·)

/-- A formula with objects in place of variables, whose lists are nested less than `fuel` deep. -/
def substituteWithin (σ : Assignment) (recorded : Bool) : (fuel : Nat) → Tree → Work Fluents Tree
  | 0, t => pure t
  | fuel + 1, t => do
    let places := List.range t.items.length
    let items ← places.foldlM (σ.fillOperator (substituteWithin σ recorded fuel)) t.items
    let items ← Work.ofExcept (places.foldlM σ.collapseOperator items)
    let items ← Work.ofExcept (Assignment.fillItems σ.vars σ.objects items)
    if recorded then
      recordFluent items
    return .list items

/-- A formula with objects in place of variables. -/
def substitute (σ : Assignment) (recorded : Bool) (t : Tree) : Work Fluents Tree :=
  substituteWithin σ recorded (t.depth + 1) t

/-- Formulas with objects in place of variables. -/
def substituteEach (σ : Assignment) (recorded : Bool) : List Tree → Work Fluents (List Tree)
  | [] => pure []
  | t :: ts => do
    let t ← substitute σ recorded t
    let ts ← substituteEach σ recorded ts
    return t :: ts

/-- The parts of a clause that is written as a tree, with objects in place of variables. -/
def substituteClause (σ : Assignment) (recorded : Bool) (t : Tree) : Work Fluents Clause := do
  let body ← substitute σ recorded (← part 0)
  let positive ← substituteEach σ recorded (← part 1).items
  let negative ← substituteEach σ recorded (← part 2).items
  let excluded ← substituteEach σ recorded (← part 3).items
  return ⟨body, positive, negative, excluded⟩
where
  part (i : Nat) : Work Fluents Tree := Work.ofExcept ((t.item? i).elim (.error .missingItem) .ok)

/-- Clauses with objects in place of variables. -/
def substituteClauses (σ : Assignment) (recorded : Bool) : List Clause → Work Fluents (List Clause)
  | [] => pure []
  | c :: cs => do
    let c ← substituteClause σ recorded c.tree
    let cs ← substituteClauses σ recorded cs
    return c :: cs

end Epistemic
