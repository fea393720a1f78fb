import Epistemic.MAp.Document
import Epistemic.Pdkb.Document
import Epistemic.Task.Domain
import Epistemic.Task.Problem
/-!
# Sessions

In a session a task is read and written. What was read, reported and written before something stops it stays.
-/
namespace Epistemic

/-- The task so far, what is reported to the user, and the files that were written, by path. -/
structure Session where
  task : Task
  report : String := ""
  files : Catalog String := []

namespace Session

/-- Reports a line. -/
def say (text : String) : Work Session Unit :=
  modify fun s => { s with report := s.report ++ text ++ "\n" }

/-- What is reported of a file that cannot be found. -/
def notFound (file : String) : String := "[Errno 2] No such file or directory: " ++ Text.quoted file

/-- The tree of a file with a text, or without one if it cannot be found. Why there is none is reported. -/
def scan (file : String) (text : Option String) : Work Session (Option Tree) := do
  match text with
  | none =>
    say (notFound file)
    return none
  | some text =>
    match Source.scan (← get).task.dialect text with
    | .ok tree => return some tree
    | .error e =>
      say e.message
      return none

/-- The sections behind the word that opens a domain or a problem. -/
def sections (otherwise : Refusal) : Option Tree → Except Fault (List Tree)
  | some (.list []) => .error .missingItem
  | some (.list (t :: ts)) => if t.isWord "define" then .ok ts else .error (.refused otherwise)
  | _ => .error (.refused otherwise)

/-- Stops if something stopped the reading. -/
def stopAt : Option Fault → Work Session Unit
  | some e => Work.stop e
  | none => pure ()

/-- Reads the domain from a file with a text. -/
def readDomain (file : String) (text : Option String) : Work Session Unit := do
  let parts ← Work.ofExcept (sections (.notADomain file) (← scan file text))
  let done := ({} : Domain).readSections (← get).task.dialect parts
  modify fun s => { s with
    task := { s.task with domain := some done.domain }
    report := s.report ++ done.report }
  stopAt done.fault

/-- Reads the problem from a file with a text. The depth is the usual one until the problem says another. -/
def readProblem (file : String) (text : Option String) : Work Session Unit := do
  modify fun s => { s with task := { s.task with depth := some .standard } }
  let parts ← Work.ofExcept (sections (.notAProblem file) (← scan file text))
  let done := Problem.readSections (← get).task {} parts
  modify fun s => { s with
    task := { done.task with problem := some done.problem }
    report := s.report ++ done.report }
  stopAt done.fault

/-- Writes a document to a file, in place of what was there. -/
def writeFile (path : String) (document : Work Draft Unit) : Work Session Unit := do
  let actions := match (← get).task.domain with
    | some d => d.actions
    | none => []
  let (outcome, draft) := document.perform { actions }
  modify fun s => {
    task := s.task.withActions draft.actions
    report := s.report ++ draft.report
    files := s.files.insert path draft.text }
  Work.ofExcept outcome

/-- The name of the domain. -/
def domainName : Work Session String := do
  Work.ofExcept ((← get).task.needDomain >>= fun d => d.name.name)

/-- The name of the problem. -/
def problemName : Work Session String := do
  Work.ofExcept ((← get).task.needProblem >>= fun p => p.name.name)

/-- The name of the task: those of the domain and the problem. -/
def taskName : Work Session String := do
  let domain ← domainName
  let problem ← problemName
  return domain ++ "_" ++ problem

/-- What the file of a task in mAp is called, behind the name of the task. -/
def extension : Dialect → String
  | .levels => ".txt"
  | .groups => ".tmp"

/-- Writes the task in mAp. -/
def writeMAp (folder : String) : Work Session Unit := do
  let name ← taskName
  let t := (← get).task
  let d ← Work.ofExcept t.needDomain
  let p ← Work.ofExcept t.needProblem
  writeFile (folder ++ "/" ++ name ++ extension t.dialect) (MAp.document t d p)

/-- Writes the domain in PDKB. -/
def writePdkbDomain (folder : String) : Work Session Unit := do
  let name ← domainName
  let d ← Work.ofExcept (← get).task.needDomain
  writeFile (folder ++ "/" ++ name ++ ".pdkbpddl") (Pdkb.domainDocument name d)

/-- Writes the problem in PDKB. -/
def writePdkbProblem (folder : String) : Work Session Unit := do
  let name ← problemName
  let t := (← get).task
  let p ← Work.ofExcept t.needProblem
  writeFile (folder ++ "/" ++ name ++ ".pdkbpddl") (Pdkb.problemDocument name p t)

/-- Writes the task in PDKB. -/
def writePdkb (folder : String) : Work Session Unit := do
  writePdkbDomain folder
  writePdkbProblem folder

end Session
end Epistemic
