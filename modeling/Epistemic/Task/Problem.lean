import Epistemic.Declaration.Literal
import Epistemic.Task.Basic
/-!
# Reading a problem

A problem has the form of a domain, with sections of its own. It names its domain, which must be the one that was
read, and files its objects there.
-/
namespace Epistemic
namespace Problem

/-- A problem in its task as far as it was read, with what is reported and what stopped the reading. -/
structure Read where
  task : Task
  problem : Problem
  report : String := ""
  fault : Option Fault := none

/-- Files objects with those of the domain. -/
def readObjects (declare : List Tree → Hierarchy → Hierarchy.Declared) (task : Task) (problem : Problem)
    (ts : List Tree) : Read :=
  match task.domain with
  | none => { task, problem, fault := some .unread }
  | some d =>
    let done := declare ts d.objects
    { task := { task with domain := some { d with objects := done.hierarchy } }, problem, fault := done.fault }

/-- Checks the name of the domain. -/
def checkDomain (task : Task) (ts : List Tree) : Option Fault :=
  match task.domain, ts with
  | none, _ => some .unread
  | some _, [] => some .missingItem
  | some d, name :: _ => if d.name == name then none else some (.refused .otherDomain)

/-- Reads the literals of a conjunction, and hands them to `keep`. -/
def readLiterals (place : String) (keep : Literals → Problem) (task : Task) (problem : Problem) (ts : List Tree) :
    Read :=
  let done := Literals.split place {} (.list (.word "and" :: ts))
  match done.fault with
  | some e => { task, problem, fault := some e }
  | none => { task, problem := keep done.literals }

/-- Reads a section: its keyword, and what stands behind it. -/
def readBehind (task : Task) (problem : Problem) (keyword : Tree) (ts : List Tree) : Read :=
  if keyword.isWord "problem" then
    match ts with
    | [] => { task, problem, fault := some .missingItem }
    | name :: _ => { task, problem := { problem with name } }
  else if keyword.isWord ":domain" then { task, problem, fault := checkDomain task ts }
  else if keyword.isWord ":requirements" then { task, problem }
  else if keyword.isWord ":objects" then readObjects (Hierarchy.declare ":objects" false) task problem ts
  else if keyword.isWord ":agents" then readObjects (Hierarchy.declareAgents ":agents" false) task problem ts
  else if keyword.isWord ":depth" then
    match ts with
    | [] => { task, problem, fault := some .missingItem }
    | value :: _ => { task := { task with depth := some (.declared value) }, problem }
  else if keyword.isWord ":init" then
    readLiterals "init" (fun ls => { problem with state := ls.positive }) task problem ts
  else if keyword.isWord ":goal" then
    readLiterals "goals" (fun ls => { problem with positiveGoals := ls.positive, negativeGoals := ls.negative })
      task problem ts
  else { task, problem, report := keyword.shown ++ " is not recognized in problem\n" }

/-- Reads a section. -/
def readSection (task : Task) (problem : Problem) : Tree → Read
  | .word _ => { task, problem, fault := some .wordForList }
  | .list [] => { task, problem, fault := some .missingItem }
  | .list (keyword :: ts) => readBehind task problem keyword ts

/-- Reads sections up to one that cannot be read. -/
def readSections (task : Task) (problem : Problem) : List Tree → Read
  | [] => { task, problem }
  | t :: ts =>
    let first := readSection task problem t
    match first.fault with
    | some _ => first
    | none =>
      let rest := readSections first.task first.problem ts
      { rest with report := first.report ++ rest.report }

end Problem
end Epistemic
