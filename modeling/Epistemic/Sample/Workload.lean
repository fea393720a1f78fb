import Epistemic.Sample.Task
import Epistemic.Session
/-!
# Workloads

Jobs of a given size on sample texts. A job is prepared once and then run as often as asked; what a run gives is the
size of its result.
-/
namespace Epistemic
namespace Sample

/-- A job: whether it could be prepared, and what each run of it gives. -/
structure Workload where
  prepared : Except Fault Unit := .ok ()
  run : Except Fault Nat

/-- What so many runs give, up to the first that stops. -/
def Workload.repeated (w : Workload) : Nat → List Nat × Option Fault
  | 0 => ([], match w.prepared with | .ok () => none | .error e => some e)
  | n + 1 =>
    match w.repeated n with
    | (results, some e) => (results, some e)
    | (results, none) =>
      match w.run with
      | .ok result => (results ++ [result], none)
      | .error e => (results, some e)

/-- Words with a list behind every eighth. -/
def wordsAndLists (n : Nat) : List String :=
  (List.range n).flatMap fun i => ["tok" ++ toString i] ++ if i % 8 == 7 then ["(sub)"] else []

/-- Reads a list of so many words into a tree. -/
def scanning (n : Nat) : Workload :=
  let source := "(" ++ words ("define" :: wordsAndLists n) ++ ")"
  { run := match Source.scan .levels source with
      | .ok t => .ok t.items.length
      | .error _ => .error .unread }

/-- Beliefs of an agent and of two agents, in turn. -/
def formulas : List Tree := [
  .list [.word "B(ag0,", .word "flag", .word "ag0"],
  .list [.word "C(ag0,ag1,", .list [.word "flag", .word "ag0"]],
  .list [.word "B(ag0,", .word "-flag", .word "ag0"]]

/-- The number of characters of a formula in mAp, in PDKB, and in PDKB as it is copied. -/
def formulaSize (t : Tree) : Except Fault Nat := do
  let inMAp ← MAp.formula t
  let inPdkb ← Pdkb.formula t
  let copied ← Pdkb.verbatim t
  return inMAp.length + inPdkb.length + copied.length

/-- Writes so many formulas. -/
def writing (n : Nat) : Workload where
  run := (List.range n).foldlM (fun sum i => do
    return sum + (← formulaSize (formulas.getD (i % formulas.length) (.list [])))) 0

/-- What a task is to be used for. -/
inductive Use where
  | reading
  | grounding
  | mAp
  | pdkb
  deriving DecidableEq, Repr

/-- The texts of the sample domain and problem. -/
def texts (dialect : Dialect) (n : Nat) : Except Fault (String × String) :=
  match dialect with
  | .levels => (problem n 2).map (domain 0, ·)
  | .groups => (groupProblem n "domain.epddl").map (groupDomain, ·)

/-- Reads the texts of a task. -/
def readTask (source : String × String) : Work Session Unit := do
  Session.readDomain "domain.epddl" (some source.1)
  Session.readProblem "problem.epddl" (some source.2)

/-- Uses a task that was read: the number of the actions that were ground, or of the files that were written. -/
def useTask : Use → Work Session Nat
  | .reading => do
    return (← Work.ofExcept (← get).task.needDomain).actions.length
  | .grounding => do
    let d ← Work.ofExcept (← get).task.needDomain
    let (outcome, grounding) := (MAp.groundActions .ok d).perform {}
    Work.ofExcept outcome
    return grounding.actions.length
  | .mAp => do
    Session.writeMAp "out"
    return (← get).files.length
  | .pdkb => do
    Session.writePdkb "out"
    return (← get).files.length

/-- Uses a sample task with so many agents. It is read anew in each run, or once in the preparation. -/
def task (dialect : Dialect) (use : Use) (anew : Bool) (n : Nat) : Workload :=
  match texts dialect n with
  | .error e => { prepared := .error e, run := .error e }
  | .ok source =>
    let (read, session) := (readTask source).perform { task := { dialect } }
    { prepared := if anew then .ok () else read
      run := match read with
        | .error e => .error e
        | .ok () => ((useTask use).perform session).1 }

/-- The jobs, in the order in which all of them are run. -/
inductive Job where
  | groupsToPdkb
  | groupsToMAp
  | odds
  | ground
  | read
  | toMAp
  | toPdkb
  | scan
  | write
  deriving DecidableEq, Repr

namespace Job

/-- All jobs, in order. -/
def all : List Job := [groupsToPdkb, groupsToMAp, odds, ground, read, toMAp, toPdkb, scan, write]

/-- How many words, formulas or agents a job usually has. -/
def usualSize : Job → Nat
  | scan => 2000
  | write => 400
  | _ => 3

/-- The workload of a job of a given size. -/
def workload (n : Nat) : Job → Workload
  | scan => scanning n
  | write => writing n
  | read => task .levels .reading true n
  | odds => task .levels .reading false n
  | ground => task .levels .grounding false n
  | toMAp => task .levels .mAp true n
  | toPdkb => task .levels .pdkb false n
  | groupsToMAp => task .groups .mAp true n
  | groupsToPdkb => task .groups .pdkb false n

/-- What stops the first of the jobs that does not end well, if all are run once at their usual sizes. -/
def firstFault : Option Fault := all.findSome? fun job => ((job.workload job.usualSize).repeated 1).2

end Job

end Sample
end Epistemic
