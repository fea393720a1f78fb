import Epistemic.Effect.Tidy
import Epistemic.Work
/-!
# Sheets

What an action is printed on: the text so far, what is reported to the user, and the guards of the action, which
printing clears of blanks.
-/
namespace Epistemic

/-- A sheet with the guards of the action that is being printed. -/
structure Sheet where
  text : String := ""
  report : String := ""
  guards : List Guard := []

namespace Sheet

/-- Writes on the sheet. -/
def write (s : String) : Work Sheet Unit :=
  modify fun sheet => { sheet with text := sheet.text ++ s }

/-- Reports a line to the user. -/
def say (s : String) : Work Sheet Unit :=
  modify fun sheet => { sheet with report := sheet.report ++ s ++ "\n" }

/-- The guard at a place. -/
def guard (i : Nat) : Work Sheet Guard := do
  return guardAt (← get).guards i

/-- Writes a guard that was printed. -/
def writePrinted (p : PrintedGuard) : Work Sheet Bool := do
  write p.text
  Work.ofExcept p.outcome

/-- Puts another guard at a place. -/
def setGuard (i : Nat) (g : Guard) : Work Sheet Unit :=
  modify fun sheet => { sheet with guards := sheet.guards.set i g }

/-- Prints the guard at a place, and keeps what printing leaves of it. -/
def printGuard (print : Guard → PrintedGuard) (i : Nat) : Work Sheet Bool := do
  let p := print (← guard i)
  setGuard i p.left
  writePrinted p

/-- Steps with a guard of their own, which stands behind those of the action for as long as they last. -/
def withGuard {α : Type} (g : Guard) (steps : Nat → Work Sheet α) : Work Sheet α := do
  let sheet ← get
  let (result, left) := (steps sheet.guards.length).perform { sheet with guards := sheet.guards ++ [g] }
  set { left with guards := left.guards.take sheet.guards.length }
  Work.ofExcept result

/-- The name of an agent. -/
def nameOf : Tree → Work Sheet String
  | .word s => pure s
  | .list _ => Work.stop .listForName

@[simp] theorem perform_write (s : String) (sheet : Sheet) :
    (write s).perform sheet = (.ok (), { sheet with text := sheet.text ++ s }) := rfl

theorem perform_write_bind {α : Type} (s : String) (next : Unit → Work Sheet α) (sheet : Sheet) :
    (write s >>= next).perform sheet = (next ()).perform { sheet with text := sheet.text ++ s } :=
  Work.perform_bind_ok (perform_write s sheet)

theorem perform_guard_bind {α : Type} (i : Nat) (next : Guard → Work Sheet α) (sheet : Sheet) :
    (guard i >>= next).perform sheet = (next (guardAt sheet.guards i)).perform sheet := rfl

theorem perform_setGuard_bind {α : Type} (i : Nat) (g : Guard) (next : Unit → Work Sheet α) (sheet : Sheet) :
    (setGuard i g >>= next).perform sheet = (next ()).perform { sheet with guards := sheet.guards.set i g } :=
  Work.perform_bind_ok (Work.perform_modify _ sheet)

theorem perform_writePrinted (p : PrintedGuard) (sheet : Sheet) :
    (writePrinted p).perform sheet = (p.outcome, { sheet with text := sheet.text ++ p.text }) := by
  rw [writePrinted, perform_write_bind, Work.perform_ofExcept]

theorem perform_printGuard (print : Guard → PrintedGuard) (i : Nat) (sheet : Sheet) :
    (printGuard print i).perform sheet = ((print (guardAt sheet.guards i)).outcome, { sheet with
      text := sheet.text ++ (print (guardAt sheet.guards i)).text
      guards := sheet.guards.set i (print (guardAt sheet.guards i)).left }) := by
  rw [printGuard, perform_guard_bind, perform_setGuard_bind, perform_writePrinted]

/-- **Steps that write to no guard but their own leave those of the action as they are.** -/
theorem perform_withGuard {α : Type} {g g' : Guard} {steps : Nat → Work Sheet α} {text text' report report' : String}
    {guards : List Guard} {result : Except Fault α}
    (h : (steps guards.length).perform ⟨text, report, guards ++ [g]⟩ = (result, ⟨text', report', guards ++ [g']⟩)) :
    (withGuard g steps).perform ⟨text, report, guards⟩ = (result, ⟨text', report', guards⟩) := by
  rw [withGuard, Work.perform_bind_ok (Work.perform_get _)]
  simp only [h, List.take_left]
  exact (Work.perform_bind_ok rfl).trans (Work.perform_ofExcept _ _)

end Sheet
end Epistemic
