import Epistemic.Grounding.Instances
import Epistemic.Grounding.Substitution
import Epistemic.Task.Basic
/-!
# The fluents of a task

The atoms of the initial state and of the goals, and every predicate with all choices of different objects for its
variables.
-/
namespace Epistemic
namespace MAp

/-- Whether a formula in mAp has an operator. -/
def hasOperator (text : String) : Bool :=
  let t := Tree.word text
  t.hasBelief || t.hasCommonBelief

/-- Adds a formula, unless it has an operator. -/
def addFluent (t : Tree) : Work Fluents Unit := do
  let text ← Work.ofExcept (formula t)
  unless hasOperator text do
    modify (text :: ·)

/-- Adds the fluents of a predicate for each choice of different objects. -/
def addInstances (name : String) (r : Ranges) : Work Fluents Unit :=
  Work.each (fun objects => do
    if ← Work.ofExcept (keepsChoice true objects) then
      let items ← Work.ofExcept (Assignment.fillItems r.vars objects (.word name :: r.vars))
      addFluent (.list items)) r.assignments

/-- Adds the fluents of a predicate. -/
def addPredicate (objects types : Hierarchy) (name : String) (vars : Catalog Tree) : Work Fluents Unit := do
  let ranges ← Work.ofExcept (Ranges.read objects types (vars.map fun (v, type) => .list [.word v, type]))
  addInstances name ranges

/-- Adds the fluents of a task. -/
def addTask (t : Task) : Work Fluents Unit := do
  let p ← Work.ofExcept t.needProblem
  Work.each addFluent p.state
  Work.each addFluent p.positiveGoals
  Work.each addFluent p.negativeGoals
  let d ← Work.ofExcept t.needDomain
  Work.each (fun (name, vars) => addPredicate d.objects d.types name vars) d.predicates

/-- Leaves out what is the same as its neighbour. -/
def dropRepeats : List String → List String
  | [] => []
  | [x] => [x]
  | x :: y :: rest => if x == y then dropRepeats (y :: rest) else x :: dropRepeats (y :: rest)

/-- Whether a text comes before another, or is the same: by the first character in which they differ. -/
def inOrder : List Char → List Char → Bool
  | [], _ => true
  | _ :: _, [] => false
  | c :: cs, d :: ds => c.toNat < d.toNat || (c == d && inOrder cs ds)

/-- Texts in the order of their characters, each once. -/
def sorted (texts : List String) : List String :=
  dropRepeats (texts.mergeSort fun x y => inOrder x.toList y.toList)

end MAp
end Epistemic
