import Epistemic.Draft
import Epistemic.Grounding.Action
import Epistemic.MAp.Action
import Epistemic.MAp.Fluents
/-!
# Documents in mAp

A document declares the fluents, the names of the ground actions and the agents, and then says what the actions do,
what holds and is believed at first, and what is to be reached.
-/
namespace Epistemic
namespace MAp

open Draft (write)

/-- What stands behind the name at a place of a listing: after every tenth name a new statement begins. -/
def separator (keyword : String) (place : Nat) : String :=
  if (place + 1) % 10 == 0 then ";\n" ++ keyword ++ " " else ", "

/-- Names with separators between them, of which the first is at a place of the listing. -/
def listingFrom (keyword : String) : (place : Nat) → List String → String
  | _, [] => ""
  | _, [x] => x
  | i, x :: y :: rest => x ++ separator keyword i ++ listingFrom keyword (i + 1) (y :: rest)

/-- A listing of names in sets of ten. -/
def listing (keyword : String) (names : List String) : String := listingFrom keyword 0 names

/-- The names before the first tree that is none. -/
def namesBefore : List Tree → List String
  | .word s :: ts => s :: namesBefore ts
  | _ => []

/-- A listing of trees, which stops before the first that is no name. -/
def listingOfTrees (keyword : String) (ts : List Tree) : String × Option Fault :=
  let names := namesBefore ts
  if names.length == ts.length then (listing keyword names, none)
  else if names.isEmpty then ("", some .listForName)
  else (listing keyword names ++ separator keyword (names.length - 1), some .listForName)

/-- The line that ends a section. -/
def rule : String := "%%%%%%%%%%%%%%%%%%%%%%%%%%%%%%%%%%%%%%%%%%%%%%%%%%%%%%%%%%%%%%%%\n"

/-- The section of fluents. -/
def fluentSection (fluents : List String) : String :=
  "%%%%%%%%%%%%%%%%%%%%%%%%%    FLUENTS    %%%%%%%%%%%%%%%%%%%%%%%%\n" ++
  "%Fluents generated from EPDDL by grounding each predicate (and cheking in :init, :goal and actions for extra " ++
  "predicates)\n" ++
  "%The fluents are lexicographically sorted and printed in sets of 10\n\n" ++
  "fluent " ++ listing "fluent" fluents ++ ";\n\n" ++ rule ++ "\n\n"

/-- The section of the names of actions. -/
def actionNameSection (names : List String) : String :=
  "%%%%%%%%%%%%%%%%%%%%%    ACTIONS' NAMES    %%%%%%%%%%%%%%%%%%%%%\n" ++
  "%Actions' names generated from EPDDL by adding to each action names its grounded predicates\n\n" ++
  "action " ++ listing "action" names ++ ";\n\n" ++ rule ++ "\n\n"

/-- The section of agents. -/
def agentSection (d : Domain) : Work Draft Unit := do
  write ("%%%%%%%%%%%%%%%%%%%%%    AGENTS' NAMES    %%%%%%%%%%%%%%%%%%%%%%\n" ++
    "%Agents' names generated from EPDDL by looking at the 'agent' predicate\n\n" ++
    "agent ")
  let (text, fault) := listingOfTrees "agent" (← Work.ofExcept d.agents)
  write text
  if let some e := fault then
    Work.stop e
  write (";\n\n" ++ rule ++ "\n\n")

/-- The section of what actions do. -/
def actionSection (dialect : Dialect) (d : Domain) (actions : List GroundAction) : Work Draft Unit := do
  write ("%%%%%%%%%%%%%%%%%    ACTIONS' SPECIFICATIONS    %%%%%%%%%%%%%%%%\n" ++
    "%Actions' specifications generated from EPDDL by grounding each action's definition\n\n")
  Work.each (fun g => Draft.print (action dialect d.agents d.groups) g.place g.action) actions
  write (rule ++ "\n\n")

/-- The formulas of the initial state that have no operator and those that have one, as they were read. -/
structure InitialTexts where
  facts : List String := []
  beliefs : List String := []

/-- Whether a comma stands behind a fact: if another formula follows that is not headed by an operator. -/
def commaBefore : List Tree → Except Fault Bool
  | [] => .ok false
  | next :: _ =>
    match next.item? 0 with
    | none => .error .missingItem
    | some head => .ok (!head.hasBelief && !head.hasCommonBelief)

/-- Writes the facts of the initial state, and keeps its beliefs. -/
def factsFrom : List Tree → InitialTexts → Work Draft InitialTexts
  | [], found => pure found
  | t :: ts, found => do
    let text ← Work.ofExcept (formula t)
    if hasOperator text then
      factsFrom ts { found with beliefs := text :: found.beliefs }
    else
      write text
      if ← Work.ofExcept (commaBefore ts) then
        write ", "
      factsFrom ts { found with facts := text :: found.facts }

/-- The line of fluents that are false at first: those that are not among the facts. -/
def falseFluents (fluents facts : List String) : String :=
  String.intercalate ", " ((fluents.filter (!facts.contains ·)).map ("-" ++ ·))

/-- The section of the fluents that hold at first. -/
def truthSection (fluents : List String) (p : Problem) : Work Draft InitialTexts := do
  write ("%%%%%%%%%%%%%%%%%%    INITIAL FLUENTS TRUTH   %%%%%%%%%%%%%%%%%%\n" ++
    "%Fluents are considered true when are inserted in :init; otherwise are considered false\n\n" ++
    "%%%True fluents\n" ++
    "initially ")
  let found ← factsFrom p.state {}
  write (";\n" ++
    "%%%False fluents\n" ++
    "initially " ++ falseFluents fluents found.facts ++ ";\n\n" ++ rule ++ "\n\n")
  return found

/-- The section of the beliefs that are held at first. -/
def beliefSection (beliefs : List String) : String :=
  "%%%%%%%%%%%%%%%%%%    INITIAL BELIEFS TRUTH   %%%%%%%%%%%%%%%%%%\n" ++
  "%Extracted from the :init field\n\n" ++
  String.intercalate ";\n" (beliefs.map ("initially " ++ ·)) ++ ";\n\n" ++ rule ++ "\n\n"

/-- One goal. -/
def goal (t : Tree) : Work Draft Unit := do
  write "goal "
  let text ← Work.ofExcept (formula t)
  write (text ++ ";\n")

/-- The section of goals. -/
def goalSection (p : Problem) : Work Draft Unit := do
  write ("%%%%%%%%%%%%%%%%%%%%%%%%%%    GOALS   %%%%%%%%%%%%%%%%%%%%%%%%%%\n" ++
    "%The goals of the plan. Each goal is presented separately to ease the reading\n\n")
  Work.each goal p.positiveGoals
  Work.each goal p.negativeGoals
  write ("\n" ++ rule)

/-- Grounds actions in turn, the first of which has a place in the task. -/
def groundFrom (finish : Action → Except Fault Action) (d : Domain) : (place : Nat) → List Action → Work Grounding Unit
  | _, [] => pure ()
  | i, a :: as => do
    a.ground finish d.objects d.types (asksForDistinct (.list d.requirements)) d.groups i
    groundFrom finish d (i + 1) as

/-- Grounds the actions of a domain. -/
def groundActions (finish : Action → Except Fault Action) (d : Domain) : Work Grounding Unit :=
  groundFrom finish d 0 d.actions

/-- Grounds the actions of a domain under names of their own, and adds the fluents of the task. -/
def groundTask (t : Task) (d : Domain) : Work Grounding Unit := do
  groundActions Action.underGroundName d
  Grounding.recording (addTask t)

/-- The document of a task. -/
def document (t : Task) (d : Domain) (p : Problem) : Work Draft Unit := do
  write "%This file is automatically generated from an E-PDDL specification and follows the mAp syntax.\n\n"
  let (outcome, grounding) := (groundTask t d).perform {}
  Work.ofExcept outcome
  let fluents := (sorted grounding.fluents).filter (· != "")
  let actions := grounding.actions.reverse
  write (fluentSection fluents)
  write (actionNameSection (actions.map (·.action.name)))
  agentSection d
  actionSection t.dialect d actions
  let found ← truthSection fluents p
  write (beliefSection (sorted found.beliefs))
  goalSection p

end MAp
end Epistemic
