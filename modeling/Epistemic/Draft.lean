import Epistemic.Action.Basic
import Epistemic.Sheet
/-!
# Drafts

A document that is being written: its text so far, what is reported, and the actions of the task, whose guards are
cleared of blanks when they are printed.
-/
namespace Epistemic

/-- A document that is being written. -/
structure Draft where
  text : String := ""
  report : String := ""
  actions : List Action := []

namespace Draft

/-- Writes text. -/
def write (s : String) : Work Draft Unit :=
  modify fun draft => { draft with text := draft.text ++ s }

/-- Gives the action at a place other guards. -/
def setGuards (place : Option Nat) (guards : List Guard) (actions : List Action) : List Action :=
  match place with
  | none => actions
  | some i => actions.modify i fun a => { a with guards }

/-- Prints an action on a sheet of its own. What printing leaves of its guards is kept if it has a place in the task. -/
def print (how : Action → Work Sheet Unit) (place : Option Nat) (a : Action) : Work Draft Unit := do
  let (outcome, sheet) := (how a).perform { guards := a.guards }
  modify fun draft => {
    text := draft.text ++ sheet.text
    report := draft.report ++ sheet.report
    actions := setGuards place sheet.guards draft.actions }
  Work.ofExcept outcome

end Draft
end Epistemic
