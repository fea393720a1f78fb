import Epistemic.Action.Basic
import Epistemic.Effect.Quantified
import Epistemic.MAp.Conditions
import Epistemic.Sheet
import Epistemic.Source.Scan
/-!
# Actions in mAp

A statement for each effect and each observing agent, with its conditions behind it.
-/
namespace Epistemic
namespace MAp

open Sheet

/-- Writes text that may have been cut short. -/
def writeListed : String × Option Fault → Work Sheet Unit
  | (text, none) => write text
  | (text, some e) => do
    write text
    Work.stop e

/-- The preconditions, if there are any. -/
def preconditions (a : Action) : Work Sheet Unit := do
  if a.positivePreconditions.isEmpty && a.negativePreconditions.isEmpty then
    return
  write " if "
  writeListed (listedInOrder "" (!a.negativePreconditions.isEmpty) a.positivePreconditions)
  writeListed (listedInOrder "-" false a.negativePreconditions)
  write ";\n"

/-- What an action of a kind does to its effects. With observer groups all kinds are written alike. -/
def effectVerb (dialect : Dialect) (kind : ActionKind) : String :=
  match dialect, kind with
  | .groups, _ => " has_effects "
  | .levels, .sensing => " determines "
  | .levels, .announcement => " announces "
  | .levels, _ => " causes "

/-- The statement of one effect. -/
def effect (name verb sign : String) (e : Entry) : Work Sheet Unit := do
  write (name ++ verb)
  let text ← Work.ofExcept (formula e.body)
  write (sign ++ text)
  let _ ← printGuard guard e.guard
  write ";\n"

/-- The statements of all effects. -/
def effects (dialect : Dialect) (a : Action) : Work Sheet Unit := do
  Work.each (effect a.name (effectVerb dialect a.kind) "") a.addEffects
  Work.each (effect a.name (effectVerb dialect a.kind) "-") a.deleteEffects

/-- Whether a quantified clause leaves an agent out. -/
def leavesOut (e : Entry) (agent : Tree) : Except Fault Bool :=
  match e.excluded with
  | [] => .error .missingItem
  | group :: _ =>
    match group.item? 0 with
    | none => .error .missingItem
    | some first => .ok (!first.isWord "" && agent == first)

/-- Puts an agent in place of the marked variables of the guard at a place. -/
def fillGuard (agent : String) (i : Nat) : Work Sheet Unit := do
  setGuard i (← Work.ofExcept ((← Sheet.guard i).filled agent))

/-- The statement of one agent for a quantified clause. It is printed from a copy of the clause. -/
def quantifiedObserver (name verb : String) (e : Entry) (agent : Tree) : Work Sheet Unit := do
  if ← Work.ofExcept (leavesOut e agent) then
    return
  let agent ← nameOf agent
  withGuard (e.clause (← get).guards).copiedGuard fun copy => do
    write (agent ++ verb ++ name)
    fillGuard agent copy
    let _ ← printGuard guard copy
    write ";\n"

/-- The statements of one name in a clause: one for a plain agent, and one for each agent if the name is quantified. -/
def observer (agents : Except Fault (List Tree)) (name verb : String) (e : Entry) (ag : Tree) : Work Sheet Unit := do
  if isMarked ag then
    Work.each (quantifiedObserver name verb e) (← Work.ofExcept agents)
  else
    write (ag.shown ++ verb ++ name)
    let _ ← printGuard guard e.guard
    write ";\n"

/-- The statements of clauses. -/
def observers (agents : Except Fault (List Tree)) (name verb : String) (es : List Entry) : Work Sheet Unit :=
  Work.each (fun e => Work.each (observer agents name verb e) e.body.items) es

/-- The statements of the agents that observe fully. -/
def fullObservers (agents : Except Fault (List Tree)) (a : Action) : Work Sheet Unit :=
  match a.observers with
  | .levels full _ => observers agents a.name " observes " full
  | .groups _ => pure ()

/-- The statements of the agents that observe in part. -/
def observersInPart (agents : Except Fault (List Tree)) (a : Action) : Work Sheet Unit :=
  match a.observers with
  | .levels _ inPart => observers agents a.name " aware_of " inPart
  | .groups _ => pure ()

/-- The statements of the agents of the declared groups. -/
def groupObservers (agents : Except Fault (List Tree)) (groups : List Tree) (a : Action) : Work Sheet Unit :=
  match a.observers with
  | .levels _ _ => pure ()
  | .groups members =>
    Work.each (fun g => do
      let name ← nameOf g
      let es ← Work.ofExcept (Action.groupEntries members g)
      observers agents a.name (" in_group " ++ name ++ " of ") es) groups

/-- All that is said about a ground action. -/
def action (dialect : Dialect) (agents : Except Fault (List Tree)) (groups : List Tree) (a : Action) :
    Work Sheet Unit := do
  write ("%%%Action " ++ a.name ++ "\n\n")
  write ("executable " ++ a.name)
  preconditions a
  effects dialect a
  match dialect with
  | .levels =>
    fullObservers agents a
    observersInPart agents a
  | .groups =>
    write (a.name ++ " has_type " ++ a.kind.name ++ ";\n")
    groupObservers agents groups a
  write "\n%%%\n\n"

end MAp
end Epistemic
