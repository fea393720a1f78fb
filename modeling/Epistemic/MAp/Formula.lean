import Epistemic.Fault
import Epistemic.Tree
/-!
# Formulas in mAp

The words of an atom are joined by underscores, and an operator encloses what follows it: `B(a,p_x)` for the belief of
one agent, `C([a,b],p_x)` for the common belief of several.
-/
namespace Epistemic
namespace MAp

/-- An operator of several agents, with its agents in brackets. -/
def commonBelief (w : List Char) : List Char :=
  (Text.replaceAll "C(".toList "C([".toList w).dropLast ++ "],".toList

/-- The text of an operator, if the tree is one. -/
def operator? (t : Tree) : Except Fault (Option String) :=
  match t with
  | .word w =>
    if t.hasCommonBelief then .ok (some (String.ofList (commonBelief w.toList)))
    else if t.hasBelief then .ok (some w)
    else .ok none
  | .list _ =>
    if t.hasCommonBelief then .error .listForWord
    else if t.hasBelief then .error .listForName
    else .ok none

mutual
/-- Writes a formula after passing over `skip` items, with `opened` operators to close at its end. -/
def formulaFrom : (skip opened : Nat) → List Tree → Except Fault String
  | _, opened, [] => .ok (closings opened)
  | skip + 1, opened, _ :: ts => formulaFrom skip opened ts
  | 0, opened, t :: ts =>
    match operator? t with
    | .error e => .error e
    | .ok none =>
      (formulaFrom 0 opened ts).map fun rest => t.shown ++ (if ts.isEmpty then "" else "_") ++ rest
    | .ok (some op) =>
      match behindOperator ts with
      | .error e => .error e
      | .ok (text, skip) => (formulaFrom skip (opened + 1) ts).map fun rest => op ++ text ++ rest
/-- What stands behind an operator, if it is a list: the formula that it is, and how many items are passed over for it,
which are as many as it has. -/
def behindOperator : List Tree → Except Fault (String × Nat)
  | [] => .error .missingItem
  | t :: _ => enclosed t
/-- The formula that a list is, with the number of its items. -/
def enclosed : Tree → Except Fault (String × Nat)
  | .word _ => .ok ("", 0)
  | .list inner => (formulaFrom 0 0 inner).map (·, inner.length)
end

/-- A formula in mAp. -/
def formula (t : Tree) : Except Fault String := formulaFrom 0 0 t.items

end MAp
end Epistemic
