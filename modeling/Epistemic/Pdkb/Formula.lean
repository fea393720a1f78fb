import Epistemic.Fault
import Epistemic.Tree
/-!
# Formulas in PDKB

The words of an atom are separated by blanks, and stand in parentheses behind an operator: `[a](p x)`. A hyphen, which
marks a negation, is written as `!`.
-/
namespace Epistemic
namespace Pdkb

/-- A word with its hyphens written as negations, unless they are kept. -/
def sign (keep : Bool) (t : Tree) : Except Fault Tree :=
  if t.mentions "-" && !keep then
    match t with
    | .word w => .ok (.word (String.ofList (Text.replaceAll ['-'] ['!'] w.toList)))
    | .list _ => .error .listForWord
  else .ok t

/-- The agents of an operator in brackets, where `mark` opens the operator. -/
def agents (mark : String) (w : String) : String :=
  String.ofList ((Text.replaceAll mark.toList ['['] w.toList).dropLast ++ [']'])

/-- The text of an operator, if the tree is one. -/
def operator? (t : Tree) : Except Fault (Option String) :=
  if t.hasCommonBelief || t.hasBelief then
    match t with
    | .word w => .ok (some (agents (if t.hasCommonBelief then "C(" else "B(") w))
    | .list _ => .error .listForWord
  else .ok none

mutual
/-- Writes a formula after passing over `skip` items, with `opened` parentheses to close at its end; `behind` says
whether an operator came last. -/
def formulaFrom (keep : Bool) : (skip opened : Nat) → (behind : Bool) → List Tree → Except Fault String
  | _, opened, _, [] => .ok (closings opened)
  | skip + 1, opened, behind, _ :: ts => formulaFrom keep skip opened behind ts
  | 0, opened, behind, t :: ts =>
    match sign keep t with
    | .error e => .error e
    | .ok t =>
      match operator? t with
      | .error e => .error e
      | .ok none =>
        (formulaFrom keep 0 (if behind then opened + 1 else opened) false ts).map fun rest =>
          (if behind then "(" else "") ++ t.shown ++ (if ts.isEmpty then "" else " ") ++ rest
      | .ok (some op) =>
        match behindOperator keep ts with
        | .error e => .error e
        | .ok (text, skip) => (formulaFrom keep skip opened true ts).map fun rest => op ++ text ++ rest
/-- What stands behind an operator, if it is a list: the formula that it is, and how many items are passed over for it,
which are as many as it has. -/
def behindOperator (keep : Bool) : List Tree → Except Fault (String × Nat)
  | [] => .error .missingItem
  | t :: _ => enclosed keep t
/-- The formula that a list behind an operator is, with the number of its items. -/
def enclosed (keep : Bool) : Tree → Except Fault (String × Nat)
  | .word _ => .ok ("", 0)
  | .list inner => (formulaFrom keep 0 0 true inner).map (·, inner.length)
end

/-- A formula in PDKB. -/
def formula (t : Tree) : Except Fault String := formulaFrom false 0 0 false t.items

/-- A formula in PDKB, behind an operator or not, with its hyphens kept or not. -/
def formulaWith (keep behind : Bool) (t : Tree) : Except Fault String := formulaFrom keep 0 0 behind t.items

/-- A formula in PDKB that was written as such and is copied. -/
def verbatim (t : Tree) : Except Fault String := formulaFrom true 0 0 false t.items

end Pdkb
end Epistemic
