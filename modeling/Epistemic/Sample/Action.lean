import Epistemic.Grounding.Action
/-!
# A sample action

Actions can be described by their parts, one after the other. The sample action is described by too few.
-/
namespace Epistemic

namespace Action

/-- An action with two levels of observers from its parts: name, kind, parameters, preconditions and effects by sign,
and observers by level. -/
def ofParts : List Tree → Except Fault Action
  | .word name :: .word kind :: parameters :: positive :: negative :: adds :: deletes :: full :: inPart :: _ =>
    match adds.items.mapM Clause.ofTree?, deletes.items.mapM Clause.ofTree?, full.items.mapM Clause.ofTree?,
        inPart.items.mapM Clause.ofTree? with
    | some adds, some deletes, some full, some inPart =>
      .ok ({ name
             kind := .ofName kind
             parameters := parameters.items
             positivePreconditions := positive.items
             negativePreconditions := negative.items
             observers := .levels [] [] : Action }.withClauses adds deletes (.levels full inPart))
    | _, _, _, _ => .error .incompleteAction
  | _ => .error .incompleteAction

end Action

namespace Sample

/-- A move from one position to another, for which it is not said who observes it. -/
def move : Except Fault Action :=
  Action.ofParts [
    .word "move",
    .list [wordList ["?ag", "agent"], wordList ["?from", "pos"], wordList ["?to", "pos"]],
    .list [wordList ["at", "?ag", "?from"], wordList ["adjacent", "?from", "?to"]],
    .list [wordList ["at", "?ag", "?to"]],
    .list [wordList ["at", "?ag", "?to"]],
    .list [wordList ["at", "?ag", "?from"]]]

end Sample
end Epistemic
