import Epistemic.Effect.Tidy
import Epistemic.MAp.Formula
/-!
# Conditions in mAp

Conditions stand behind `if` and are separated by commas; a condition that must not hold has a hyphen before it. The
formulas that begin with the belief of one agent come first, the last of them in front.
-/
namespace Epistemic
namespace MAp

/-- Whether a condition begins with the belief of one agent. -/
def beginsWithBelief (c : Tree) : Bool := (c.item? 0).any Tree.hasBelief

/-- The conditions in the order of printing. -/
def beliefsFirst (cs : List Tree) : Except Fault (List Tree) :=
  if cs.any (·.items.isEmpty) then .error .missingItem
  else .ok ((cs.filter beginsWithBelief).reverse ++ cs.filter (!beginsWithBelief ·))

/-- Formulas with `sign` before each and commas between them, as far as they can be written; `more` says whether a comma
follows the last one too. -/
def listed (sign : String) (more : Bool) : List Tree → String × Option Fault
  | [] => ("", none)
  | c :: cs =>
    match formula c with
    | .error e => ("", some e)
    | .ok text =>
      let (rest, fault) := listed sign more cs
      (sign ++ text ++ (if cs.isEmpty && !more then "" else ", ") ++ rest, fault)

/-- Formulas in the order of printing, with commas between them, as far as they can be written. -/
def listedInOrder (sign : String) (more : Bool) (cs : List Tree) : String × Option Fault :=
  match beliefsFirst cs with
  | .error e => ("", some e)
  | .ok cs => listed sign more cs

/-- The sign before a condition. -/
def signText (positive : Bool) : String := if positive then "" else "-"

/-- Prints the conditions of one sign. -/
def conditions (positive first : Bool) (cs : List Tree) : PrintedConditions :=
  match tidy cs with
  | (cs, some e) => ⟨"", cs, .error e⟩
  | ([], none) => ⟨"", [], .ok false⟩
  | (cs, none) =>
    let lead := if first then " if " else ", "
    match listedInOrder (signText positive) false cs with
    | (text, some e) => ⟨lead ++ text, cs, .error e⟩
    | (text, none) => ⟨lead ++ text, cs, .ok first⟩

/-- Prints a guard. -/
def guard (g : Guard) : PrintedGuard := printBoth conditions g

end MAp
end Epistemic
