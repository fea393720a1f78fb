import Epistemic.Action.Basic
import Epistemic.Declaration.Literal
import Epistemic.Declaration.Predicate
import Epistemic.Effect.Reading
import Epistemic.Source.Scan
/-!
# Declarations of actions

An action is declared by its name and by fields, each a word with a colon followed by its value. Words that are no
field are reported and passed over.
-/
namespace Epistemic

/-- The fields of an action. -/
inductive ActionField where
  | parameters
  | kind
  | precondition
  | effect
  | observers
  | observersInPart
  | derivation
  | explicitEffect
  deriving DecidableEq, Repr

/-- The field that a word opens. Only domains with two levels of observers have a field for the second. -/
def ActionField.of? (dialect : Dialect) (t : Tree) : Option ActionField :=
  if t.isWord ":parameters" then some .parameters
  else if t.isWord ":act_type" then some .kind
  else if t.isWord ":precondition" then some .precondition
  else if t.isWord ":effect" then some .effect
  else if t.isWord ":observers" then some .observers
  else if t.isWord ":p_observers" && dialect == .levels then some .observersInPart
  else if t.isWord ":derive" then some .derivation
  else if t.isWord ":exp_effect" then some .explicitEffect
  else none

namespace Action

/-- A declaration as far as it was read: the tokens that were left, what is reported, and the action or what stopped
the reading. -/
structure Declared where
  left : List Tree
  report : String := ""
  outcome : Except Fault Action

/-- Reads parameters. -/
def readParameters (a : Action) : Tree → Except Fault Action
  | .word w => if w.isEmpty then .ok { a with parameters := [] } else .error .wordForList
  | .list ts =>
    let vars := TypedVariables.read (a.name ++ " parameters") false ts
    match vars.fault with
    | some e => .error e
    | none => .ok { a with parameters := vars.pairs.map fun (v, type) => .list [v, type] }

/-- Adds preconditions. -/
def readPrecondition (a : Action) (t : Tree) : Except Fault Action :=
  let split := Literals.split (a.name ++ " preconditions")
    ⟨a.positivePreconditions, a.negativePreconditions⟩ t
  match split.fault with
  | some e => .error e
  | none => .ok { a with
      positivePreconditions := split.literals.positive
      negativePreconditions := split.literals.negative }

/-- Adds effects. -/
def addEffect (a : Action) (t : Tree) : Except Fault Action :=
  let done := readClause ⟨a.name ++ " effects", false⟩ t ⟨a.guards, a.addEffects, a.deleteEffects⟩
  match done.outcome with
  | .error e => .error e
  | .ok _ => .ok { a with
      guards := done.reading.guards
      addEffects := done.reading.positive
      deleteEffects := done.reading.negative }

/-- Reads observers behind those that are known: the table of guards and the entries. -/
def addObservers (a : Action) (known : List Entry) (t : Tree) : Except Fault (List Guard × List Entry) :=
  let done := readClause ⟨a.name ++ " agents", true⟩ t ⟨a.guards, known, []⟩
  match done.outcome with
  | .error e => .error e
  | .ok _ => .ok (done.reading.guards, done.reading.positive)

/-- Adds agents that observe fully. -/
def addFullObservers (a : Action) (t : Tree) : Except Fault Action :=
  match a.observers with
  | .levels full inPart => (a.addObservers full t).map fun (guards, full) =>
      { a with guards, observers := .levels full inPart }
  | .groups _ => .ok a

/-- Adds agents that observe in part. -/
def addObserversInPart (a : Action) (t : Tree) : Except Fault Action :=
  match a.observers with
  | .levels full inPart => (a.addObservers inPart t).map fun (guards, inPart) =>
      { a with guards, observers := .levels full inPart }
  | .groups _ => .ok a

/-- The name of a group, written with or without braces. -/
def groupName : Tree → Except Fault String
  | .list _ => .error .listForName
  | .word w => .ok (String.ofList (Text.unwrapLines ['\x7b'] ['\x7d'] w.toList))

/-- Adds agents to a group. -/
def addToGroup (a : Action) (group : String) (t : Tree) : Except Fault Action :=
  match a.observers with
  | .groups members => (a.addObservers ((members.get? group).getD []) t).map fun (guards, entries) =>
      { a with guards, observers := .groups (members.insert group entries) }
  | .levels _ _ => .ok a

/-- Gives a field its value. -/
def setField (a : Action) (value : Tree) : ActionField → Except Fault Action
  | .parameters => a.readParameters value
  | .kind => (ActionKind.read value).map fun kind => { a with kind }
  | .precondition => a.readPrecondition value
  | .effect => a.addEffect value
  | .observers => a.addFullObservers value
  | .observersInPart => a.addObserversInPart value
  | .derivation => .ok { a with derivation := value }
  | .explicitEffect => .ok { a with explicitEffect := value }

/-- Reads fields. The observers of a domain with groups have the name of one before them. -/
def declareFields (dialect : Dialect) (groups : List Tree) :
    List Tree → (report : String) → Action → Declared
  | [], report, a => { left := [], report, outcome := .ok a }
  | t :: ts, report, a =>
    match ActionField.of? dialect t with
    | none => declareFields dialect groups ts (report ++ t.shown ++ " is not recognized in action\n") a
    | some field =>
      match ts with
      | [] => { left := [], report, outcome := .error .missingItem }
      | value :: ts =>
        if dialect == .groups && field == .observers then
          match groupName value with
          | .error e => { left := ts, report, outcome := .error e }
          | .ok group =>
            if groups.contains (.word group) then
              match ts with
              | [] => { left := [], report, outcome := .error .missingItem }
              | value :: ts =>
                match a.addToGroup group value with
                | .error e => { left := ts, report, outcome := .error e }
                | .ok a => declareFields dialect groups ts report a
            else { left := ts, report, outcome := .error (.refused (.undeclaredGroup group)) }
        else
          match a.setField value field with
          | .error e => { left := ts, report, outcome := .error e }
          | .ok a => declareFields dialect groups ts report a

/-- Observers of whom nothing is said yet, in each of the declared groups. -/
def noObservers : Dialect → List Tree → Except Fault (Observers Entry)
  | .levels, _ => .ok (.levels [] [])
  | .groups, groups =>
    if groups.any Tree.isList then .error .listForName
    else .ok (.groups (groups.foldl (fun c g => c.insert g.shown []) []))

/-- Reads the declaration of an action, given the names of those before it and the declared groups. -/
def declare (dialect : Dialect) (known : List String) (groups : List Tree) : List Tree → Declared
  | [] => { left := [], outcome := .error .missingItem }
  | .list _ :: ts => { left := ts, outcome := .error (.refused .namelessAction) }
  | .word name :: ts =>
    if known.contains name then { left := ts, outcome := .error (.refused (.secondAction name)) }
    else match noObservers dialect groups with
      | .error e => { left := ts, outcome := .error e }
      | .ok observers => declareFields dialect groups ts "" { name, observers }

end Action
end Epistemic
