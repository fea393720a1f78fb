import Epistemic.Catalog
import Epistemic.Effect.Guard
import Epistemic.Fault
import Epistemic.Text.Lower
/-!
# Actions

An action has a kind, parameters, preconditions, effects, and observers: those who see it fully and those who see it in
part, or the members of groups that the domain declares. Its guards are kept in one table, so that what is cleared from
a guard in printing is cleared for every effect that shares it.
-/
namespace Epistemic

/-- What an action does: change the world, sense it, or announce something. -/
inductive ActionKind where
  | ontic
  | sensing
  | announcement
  /-- A kind that no rule speaks of. -/
  | other (name : String)
  deriving DecidableEq, Repr

namespace ActionKind

/-- The name of a kind. -/
def name : ActionKind → String
  | ontic => "ontic"
  | sensing => "sensing"
  | announcement => "announcement"
  | other name => name

/-- The kind of a name. -/
def ofName (name : String) : ActionKind :=
  if name == "ontic" then ontic
  else if name == "sensing" then sensing
  else if name == "announcement" then announcement
  else other name

/-- Reads a kind, in whatever case it is written. -/
def read : Tree → Except Fault ActionKind
  | .list _ => .error .listForWord
  | .word w =>
    match ofName (String.ofList (Text.lower w.toList)) with
    | other _ => .error (.refused .actionKind)
    | kind => .ok kind

end ActionKind

/-- Who observes an action, in entries of some form. -/
inductive Observers (ε : Type) where
  | levels (full inPart : List ε)
  | groups (members : Catalog (List ε))
  deriving DecidableEq, Repr

/-- An action. The parameters are variables with their types, and in a ground action the objects that stand for them. -/
structure Action where
  name : String
  kind : ActionKind := .ontic
  parameters : List Tree := []
  positivePreconditions : List Tree := []
  negativePreconditions : List Tree := []
  guards : List Guard := []
  addEffects : List Entry := []
  deleteEffects : List Entry := []
  observers : Observers Entry
  /-- A condition for deriving beliefs, written out in the other language. -/
  derivation : Tree := .list []
  /-- Effects, written out in the other language. -/
  explicitEffect : Tree := .list []

namespace Action

/-- The entries with their guards. -/
def clauses (a : Action) (es : List Entry) : List Clause := es.map (·.clause a.guards)

/-- Whether two lists of groups say the same of each group, in whatever order. -/
def sameGroups (x y : Catalog (List Clause)) : Bool :=
  x.length == y.length && x.all fun (g, cs) => y.get? g == some cs

/-- Whether two actions are described alike. Groups are compared with the order in which they are declared, and their
members by name. -/
def alike (a b : Action) : Bool :=
  a.name == b.name && a.kind.name == b.kind.name && a.parameters == b.parameters &&
  a.positivePreconditions == b.positivePreconditions && a.negativePreconditions == b.negativePreconditions &&
  a.clauses a.addEffects == b.clauses b.addEffects && a.clauses a.deleteEffects == b.clauses b.deleteEffects &&
  (match a.observers, b.observers with
    | .levels f p, .levels f' p' => a.clauses f == b.clauses f' && a.clauses p == b.clauses p'
    | .groups m, .groups m' => m.keys == m'.keys &&
        sameGroups (m.map fun (g, es) => (g, a.clauses es)) (m'.map fun (g, es) => (g, b.clauses es))
    | _, _ => false) &&
  a.derivation == b.derivation && a.explicitEffect == b.explicitEffect

/-- Clauses as they are shown: the parts of the body and the positive conditions in one list. -/
def shownClauses (cs : List Clause) : String :=
  (Tree.list (cs.map fun c => .list (c.body.items ++ c.positive))).shown

/-- The lines that show an action up to its effects. -/
def shownHead (a : Action) : String :=
  "action: " ++ a.name ++
  "\n  action type: " ++ a.kind.name ++
  "\n  parameters: " ++ (Tree.list a.parameters).shown ++
  "\n  positive_preconditions: " ++ (Tree.list (a.positivePreconditions.map fun p => .list p.items)).shown ++
  "\n  negative_preconditions: " ++ (Tree.list (a.negativePreconditions.map fun p => .list p.items)).shown ++
  "\n  add_effects: " ++ shownClauses (a.clauses a.addEffects) ++
  "\n  del_effects: " ++ shownClauses (a.clauses a.deleteEffects)

/-- The entries of a declared group. -/
def groupEntries (members : Catalog (List Entry)) : Tree → Except Fault (List Entry)
  | .list _ => .error .listForName
  | .word g =>
    match members.get? g with
    | some es => .ok es
    | none => .error .unknownGroup

/-- An action as it is shown. There is no such form for observer groups, and an action that lacks one of the declared
`groups` is told apart. -/
def shown (groups : List Tree) (a : Action) : Except Fault String :=
  match a.observers with
  | .levels full inPart => .ok (a.shownHead ++
      "\n  full observers: " ++ shownClauses (a.clauses full) ++
      "\n  partial observers: " ++ shownClauses (a.clauses inPart) ++ "\n")
  | .groups members =>
    match groups.mapM (groupEntries members) with
    | .error e => .error e
    | .ok _ => .error .noShownForm

end Action
end Epistemic
