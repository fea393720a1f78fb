import Epistemic.Action.Basic
import Epistemic.Effect.Quantified
import Epistemic.Pdkb.Conditions
import Epistemic.Sheet
/-!
# Actions in PDKB

Actions are printed with their parameters. PDKB has no observers: who observes becomes a condition for deriving beliefs
where it is quantified, and an effect on the beliefs of the agent where it is not.
-/
namespace Epistemic
namespace Pdkb

open Sheet

/-- A parameter with its type. -/
def parameter (p : Tree) : Except Fault String :=
  match p.item? 0, p.item? 1 with
  | none, _ => .error .missingItem
  | some (.list _), _ => .error .listForName
  | some (.word _), none => .error .missingItem
  | some (.word _), some (.list _) => .error .listForName
  | some (.word v), some (.word type) => .ok (v ++ " - " ++ type)

/-- Parameters with blanks between them. -/
def parameterList : List Tree → Work Sheet Unit
  | [] => pure ()
  | p :: ps => do
    write (← Work.ofExcept (parameter p))
    unless ps.isEmpty do
      write " "
    parameterList ps

/-- The parameters of an action. -/
def parameters (a : Action) : Work Sheet Unit := do
  write "\t\t:parameters\t\t\t ("
  parameterList a.parameters
  write ")\n"

/-- A field that is copied, if it was given. -/
def copied (label : String) (t : Tree) : Work Sheet Bool := do
  if t.items.isEmpty then
    return false
  write label
  write (← Work.ofExcept (verbatim t))
  write ")\n"
  return true

/-- The label of the condition for deriving beliefs. -/
def derivationLabel : String := "\t\t:derive-condition\t ("

/-- The label of the effects. -/
def effectLabel : String := "\t\t:effect\t\t\t\t ("

/-- The condition for deriving beliefs, if it was given. -/
def explicitDerivation (a : Action) : Work Sheet Bool := copied derivationLabel a.derivation

/-- The effects, if they were given. -/
def explicitEffects (a : Action) : Work Sheet Bool := copied effectLabel a.explicitEffect

/-- Warns the user, with a frame around the lines. -/
def warn (lines : List String) : Work Sheet Unit := do
  say "\n********CONVERSION WARNING********"
  Work.each say lines
  say "**********************************\n"

/-- A condition on the quantified agent, which is called `$agent$`. -/
def onAgent (c : Tree) : Except Fault String :=
  (formula c).map (fillMarks fun _ => "$agent$".toList)

/-- The condition for deriving beliefs that a guard of quantified observers states. -/
def derivationText (g : Guard) : Except Fault String := do
  let single ← match g.positive with
    | [c] => do
      let text ← formula c
      pure (if text == "" then none else some c)
    | _ => pure none
  match single with
  | some c => if g.positive == g.negative then .ok "always" else onAgent c
  | none =>
    match g.negative with
    | [c] => (onAgent c).map ("!" ++ ·)
    | negative =>
      if 1 < g.positive.length || 1 < negative.length then .error (.refused .severalConditions)
      else .error (.refused .strangeCondition)

/-- The condition for deriving beliefs of one name of a clause; `visited` says whether one was written before. -/
def derivationOf (e : Entry) (visited : Bool) (ag : Tree) : Work Sheet Bool := do
  if isMarked ag then
    if visited then
      Work.stop (.refused .severalQuantified)
    unless e.excluded.isEmpty do
      warn ["The 'diff' operator cannot be directly translated to PDKB and therefore will be ignored.",
        "You should make use of the more explicit fields."]
    write (← Work.ofExcept (derivationText (← Sheet.guard e.guard)))
    write ")\n"
    return true
  else
    return visited

/-- The conditions for deriving beliefs of clauses. -/
def derivationOfEach : List Entry → (visited : Bool) → Work Sheet Bool
  | [], visited => pure visited
  | e :: es, visited => do
    derivationOfEach es (← e.body.items.foldlM (derivationOf e) visited)

/-- The condition for deriving beliefs that the observers of an action state. -/
def derivation (a : Action) : Work Sheet Unit := do
  write derivationLabel
  let visited ← match a.observers with
    | .levels full _ => derivationOfEach full false
    | .groups members => if members.keys.contains "" then Work.stop .missingItem else pure false
  unless visited do
    write "never)\n"

/-- A precondition. -/
def precondition (sign : String) (c : Tree) : Work Sheet Unit := do
  let text := sign ++ (← Work.ofExcept (formula c))
  write (" " ++ if text.toList.contains '[' then text else "(" ++ text ++ ")")

/-- The preconditions. -/
def preconditions (a : Action) : Work Sheet Unit := do
  write "\t\t:precondition\t\t (and"
  Work.each (precondition "") a.positivePreconditions
  Work.each (precondition "!") a.negativePreconditions
  write ")\n"

/-- What is remembered from one effect to the next. -/
structure Marks where
  /-- How many statements stand on the line. -/
  count : Nat := 0
  /-- Whether an effect had a condition. -/
  guarded : Bool := false
  /-- Whether the last observer had a condition. -/
  observerGuarded : Bool := false
  /-- Whether the last observer in part had a condition. -/
  inPartGuarded : Bool := false

/-- The start of a new line among effects. -/
def newLine : String := "\n\t\t\t\t\t\t\t "

/-- The effect on what an agent that observes in part believes of one that observes fully. -/
def beliefInPart (fluent ag : String) (e : Entry) (m : Marks) (other : Tree) : Work Sheet Marks := do
  if isMarked other then
    warn ["Partial observability has not fully integrated the FORALL operator.",
      "You should make use of the more explicit fields if the results are not correct."]
    return m
  let inPartGuarded ← printGuard guard e.guard
  if m.count == 3 then
    write newLine
  let count := if m.count == 3 then 1 else m.count + 1
  let other ← nameOf other
  write (" [" ++ other ++ "][" ++ ag ++ "](or")
  write (" (" ++ fluent ++ ")")
  write (" (!" ++ fluent ++ "))")
  return { m with count, inPartGuarded }

/-- The effects on what agents that observe in part believe of one that observes fully. -/
def beliefsInPart (fluent ag : String) : List Entry → Marks → Work Sheet Marks
  | [], m => pure m
  | e :: es, m => do
    beliefsInPart fluent ag es (← e.body.items.foldlM (beliefInPart fluent ag e) m)

/-- The effect on what an observing agent believes. -/
def belief (positive : Bool) (fluent : String) (inPart : List Entry) (e : Entry) (m : Marks) (ag : Tree) :
    Work Sheet Marks := do
  if isMarked ag then
    warn ["Observability has not fully integrated the FORALL operator.",
      "Please, check the resulting conversion.\nYou should make use of the more explicit fields " ++
        "if the results are not correct."]
    return m
  let observerGuarded ← printGuard guard e.guard
  if m.count == 3 then
    write newLine
  let count := if m.count == 3 then 1 else m.count
  let ag ← nameOf ag
  write (" [" ++ ag ++ "](")
  write (signText positive ++ fluent ++ ")")
  let m ← beliefsInPart fluent ag inPart { m with count, observerGuarded }
  if m.inPartGuarded then
    write ")"
  return { m with inPartGuarded := false }

/-- The effects on what observing agents believe. -/
def beliefs (positive : Bool) (fluent : String) (inPart : List Entry) : List Entry → Marks → Work Sheet Marks
  | [], m => pure m
  | e :: es, m => do
    beliefs positive fluent inPart es (← e.body.items.foldlM (belief positive fluent inPart e) m)

/-- What an effect does to the beliefs of observers. The members of groups are not agents of PDKB: a group is refused
because of its name. -/
def observerEffects (positive ontic : Bool) (fluent : String) (o : Observers Entry) (m : Marks) : Work Sheet Marks :=
  match o with
  | .levels [] _ | .groups [] => if ontic then pure m else Work.stop (.refused .noObserver)
  | .levels full inPart => do
    let m ← beliefs positive fluent inPart full m
    if m.observerGuarded then
      write ")"
    return { m with observerGuarded := false }
  | .groups ((group, _) :: _) => Work.stop (if group.length < 3 then .missingItem else .wordForList)

/-- One effect. -/
def effect (positive : Bool) (a : Action) (m : Marks) (e : Entry) : Work Sheet Marks := do
  let ontic := a.kind != .sensing && a.kind != .announcement
  if m.count == 3 then
    write newLine
  let count := if m.count == 3 then 0 else m.count
  let fluent ← Work.ofExcept (formula e.body)
  let conditional ← printGuard guard e.guard
  let guarded := m.guarded || conditional
  if ontic then
    write (" (" ++ signText positive ++ fluent ++ ")")
  let m ← observerEffects positive ontic fluent a.observers
    { m with count := if ontic then count + 1 else count, guarded }
  if m.guarded then
    write ")"
  return m

/-- The effects of an action. -/
def effects (a : Action) : Work Sheet Unit := do
  write (effectLabel ++ "and")
  let _ ← a.addEffects.foldlM (effect true a) {}
  let _ ← a.deleteEffects.foldlM (effect false a) {}
  write ")\n"

/-- All that is said about an action. -/
def action (a : Action) : Work Sheet Unit := do
  write (";;;Action " ++ a.name ++ "\n\n")
  write ("\t(:action " ++ a.name ++ "\n")
  parameters a
  unless ← explicitDerivation a do
    derivation a
  preconditions a
  unless ← explicitEffects a do
    effects a
  write "\t)\n;;;\n\n"

end Pdkb
end Epistemic
