import Epistemic.Action.Basic
import Epistemic.Declaration.Predicate
import Epistemic.Source.Scan
/-!
# Planning tasks

A task is a domain, which says what can be done, and a problem, which says where one starts and what is to be reached.
The objects of the problem are filed with those of the domain. What has not been read yet is absent.
-/
namespace Epistemic

/-- The name of what has not said its name. -/
def unknownName : Tree := .word "unknown"

/-- What can be done, and with what. -/
structure Domain where
  name : Tree := unknownName
  requirements : List Tree := []
  types : Hierarchy := []
  objects : Hierarchy := []
  predicates : Signatures := []
  /-- The groups of observers, in a domain that declares its own. -/
  groups : List Tree := []
  actions : List Action := []

/-- Whether requirements ask for different objects for the parameters of an action. -/
def asksForDistinct (requirements : Tree) : Bool := requirements.mentions ":no-duplicates"

/-- The objects that have the type of agents. -/
def Domain.agents (d : Domain) : Except Fault (List Tree) :=
  match d.objects.get? "agent" with
  | some agents => .ok agents
  | none => .error .noAgents

/-- Where one starts, and what is to be reached. -/
structure Problem where
  name : Tree := unknownName
  state : List Tree := []
  positiveGoals : List Tree := []
  negativeGoals : List Tree := []

/-- How deep beliefs are nested: two levels, or what the problem says. -/
inductive Depth where
  | standard
  | declared (value : Tree)
  deriving DecidableEq, Repr

/-- A task as far as it was read. -/
structure Task where
  dialect : Dialect
  domain : Option Domain := none
  problem : Option Problem := none
  depth : Option Depth := none

namespace Task

/-- The domain, if it has been read. -/
def needDomain (t : Task) : Except Fault Domain :=
  match t.domain with
  | some d => .ok d
  | none => .error .unread

/-- The problem, if it has been read. -/
def needProblem (t : Task) : Except Fault Problem :=
  match t.problem with
  | some p => .ok p
  | none => .error .unread

/-- The task with other actions in its domain. -/
def withActions (t : Task) (actions : List Action) : Task :=
  { t with domain := t.domain.map fun d => { d with actions } }

end Task

/-- A tree that serves as a name. -/
def Tree.name : Tree → Except Fault String
  | .word s => .ok s
  | .list _ => .error .listForName

end Epistemic
