import Epistemic.Action.Basic
import Epistemic.Grounding.Instances
import Epistemic.Grounding.Substitution
/-!
# Ground actions

An action with parameters has a ground action for each way to give objects to its parameters. An action without
parameters is ground, and stands for itself.
-/
namespace Epistemic

/-- An action without variables. One that stands in the task itself has its place there, because printing it clears
the guards of the task. -/
structure GroundAction where
  action : Action
  place : Option Nat := none

/-- What has been ground so far: the actions in reverse order, and the fluents that were met. -/
structure Grounding where
  actions : List GroundAction := []
  fluents : Fluents := []

namespace Grounding

/-- Steps that record fluents. -/
def recording {α : Type} (w : Work Fluents α) : Work Grounding α := do
  let (result, fluents) := w.perform (← get).fluents
  modify fun g => { g with fluents }
  Work.ofExcept result

/-- Adds a ground action. -/
def add (a : GroundAction) : Work Grounding Unit :=
  modify fun g => { g with actions := a :: g.actions }

/-- The observers of a group with objects in place of variables. -/
def groundGroup (σ : Assignment) (a : Action) (members : Catalog (List Entry)) (group : Tree) :
    Work Fluents (String × List Clause) := do
  let es ← Work.ofExcept (Action.groupEntries members group)
  return (group.shown, ← substituteClauses σ false (a.clauses es))

/-- The observers of the groups with objects in place of variables. -/
def groundGroups (σ : Assignment) (a : Action) (members : Catalog (List Entry)) :
    List Tree → Catalog (List Clause) → Work Fluents (Catalog (List Clause))
  | [], done => pure done
  | g :: gs, done => do
    let (name, cs) ← groundGroup σ a members g
    groundGroups σ a members gs (done.insert name cs)

/-- The observers of an action with objects in place of variables. They name no fluents. -/
def groundObservers (groups : List Tree) (σ : Assignment) (a : Action) : Work Fluents (Observers Clause) :=
  match a.observers with
  | .levels full inPart => do
    let full ← substituteClauses σ false (a.clauses full)
    let inPart ← substituteClauses σ false (a.clauses inPart)
    return .levels full inPart
  | .groups members => do
    return .groups (← groundGroups σ a members groups [])

end Grounding

namespace Observers

/-- Adds the clauses of groups to a table of guards. -/
def addGroups (guards : List Guard) : Catalog (List Clause) → List Guard × Catalog (List Entry)
  | [] => (guards, [])
  | (g, cs) :: rest =>
    let (guards, es) := addClauses guards cs
    let (guards, rest) := addGroups guards rest
    (guards, (g, es) :: rest)

/-- Adds the clauses of observers to a table of guards. -/
def addTo (guards : List Guard) : Observers Clause → List Guard × Observers Entry
  | levels full inPart =>
    let (guards, full) := addClauses guards full
    let (guards, inPart) := addClauses guards inPart
    (guards, .levels full inPart)
  | groups members =>
    let (guards, members) := addGroups guards members
    (guards, .groups members)

end Observers

namespace Action

/-- The action with other effects and observers, each with a guard of its own. -/
def withClauses (a : Action) (adds deletes : List Clause) (observers : Observers Clause) : Action :=
  let (guards, addEffects) := addClauses [] adds
  let (guards, deleteEffects) := addClauses guards deletes
  let (guards, observers) := observers.addTo guards
  { a with guards, addEffects, deleteEffects, observers }

/-- The ground action for one assignment. What is written out in the other language is not ground. -/
def groundWith (groups : List Tree) (σ : Assignment) (a : Action) : Work Fluents Action := do
  let positivePreconditions ← substituteEach σ true a.positivePreconditions
  let negativePreconditions ← substituteEach σ true a.negativePreconditions
  let adds ← substituteClauses σ true (a.clauses a.addEffects)
  let deletes ← substituteClauses σ true (a.clauses a.deleteEffects)
  let observers ← Grounding.groundObservers groups σ a
  return { a with
    parameters := σ.objects, positivePreconditions, negativePreconditions
    derivation := .list [], explicitEffect := .list [] }.withClauses adds deletes observers

/-- Grounds an action for each assignment in turn. With `distinct`, those that use an object twice are left out. Every
ground action is handed to `finish`, which may still stop. -/
def groundEach (finish : Action → Except Fault Action) (groups : List Tree) (distinct : Bool)
    (vars : List Tree) (a : Action) : List (List Tree) → Work Grounding Unit :=
  Work.each fun objects => do
    if ← Work.ofExcept (keepsChoice distinct objects) then
      let ground ← Grounding.recording (a.groundWith groups ⟨vars, objects⟩)
      Grounding.add { action := ← Work.ofExcept (finish ground) }

/-- Grounds the action at a place of the task. -/
def ground (finish : Action → Except Fault Action) (objects types : Hierarchy) (distinct : Bool) (groups : List Tree)
    (place : Nat) (a : Action) : Work Grounding Unit := do
  if a.parameters.isEmpty then
    Grounding.add { action := ← Work.ofExcept (finish a), place := some place }
  else
    let ranges ← Work.ofExcept (Ranges.read objects types a.parameters)
    a.groundEach finish groups distinct ranges.vars ranges.assignments

/-- The name of a ground action: that of the action and the objects. -/
def groundName (a : Action) : Except Fault String :=
  a.parameters.foldlM (fun name p =>
    match p with
    | .word o => .ok (name ++ "_" ++ o)
    | .list _ => .error .listForName) a.name

/-- The ground action under its own name. -/
def underGroundName (a : Action) : Except Fault Action :=
  a.groundName.map fun name => { a with name }

end Action
end Epistemic
