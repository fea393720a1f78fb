import Epistemic.Declaration.Hierarchy
/-!
# Instances of types

The objects that a variable ranges over: those declared under its type or, if there is no such declaration, the
instances of its subtypes, from the last subtype to the first.
-/
namespace Epistemic

mutual
/-- The instances of a type, where at most `fuel` types are opened one inside the other. -/
def instancesWithin (objects types : Hierarchy) : (fuel : Nat) → Tree → Except Fault (List Tree)
  | _, .list _ => .error .listForName
  | fuel, .word type =>
    match objects.get? type with
    | some found => .ok found
    | none =>
      match types.get? type with
      | none => .error (.refused (.unknownType type))
      | some subtypes =>
        match fuel with
        | 0 => .error .circularType
        | fuel + 1 => instancesOfEach objects types fuel subtypes.reverse
/-- The instances of several types, one after the other. -/
def instancesOfEach (objects types : Hierarchy) : (fuel : Nat) → List Tree → Except Fault (List Tree)
  | _, [] => .ok []
  | fuel, t :: ts => do
    let found ← instancesWithin objects types fuel t
    let rest ← instancesOfEach objects types fuel ts
    return found ++ rest
end

/-- The instances of a type. Types that are opened one inside the other are all different unless a type is a subtype of
itself, so their number is enough. -/
def instances (objects types : Hierarchy) (type : Tree) : Except Fault (List Tree) :=
  instancesWithin objects types types.length type

/-- All ways to choose one item from each list, the choice from the last list changing fastest. -/
def choices {α : Type} : List (List α) → List (List α)
  | [] => [[]]
  | xs :: rest => xs.flatMap fun x => (choices rest).map (x :: ·)

/-- Whether a choice is kept: with `distinct`, no object may stand in it twice. -/
def keepsChoice (distinct : Bool) (choice : List Tree) : Except Fault Bool :=
  if distinct then
    if choice.any Tree.isList then .error .listForName else .ok (decide choice.Nodup)
  else .ok true

/-- Variables with the objects that each ranges over. -/
abbrev Ranges := List (Tree × List Tree)

namespace Ranges

/-- The ranges of typed variables, each a list of a variable and its type. -/
def read (objects types : Hierarchy) : List Tree → Except Fault Ranges
  | [] => .ok []
  | p :: ps =>
    match p.items with
    | [v, type] => do
      let found ← instances objects types type
      let rest ← read objects types ps
      return (v, found) :: rest
    | _ => .error .notAPair

/-- The variables. -/
def vars (r : Ranges) : List Tree := r.map Prod.fst

/-- All ways to give each variable an object. -/
def assignments (r : Ranges) : List (List Tree) := choices (r.map Prod.snd)

end Ranges
end Epistemic
