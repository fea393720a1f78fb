import Epistemic.Effect.Tidy
import Epistemic.Pdkb.Formula
/-!
# Conditions in PDKB

Conditions stand behind `when` in a conjunction; one that must not hold has a `!` before it.
-/
namespace Epistemic
namespace Pdkb

/-- Formulas with `sign` before each and a parenthesis behind each, as far as they can be written. -/
def listed (sign : String) : List Tree → String × Option Fault
  | [] => ("", none)
  | c :: cs =>
    match formula c with
    | .error e => ("", some e)
    | .ok text =>
      let (rest, fault) := listed sign cs
      (sign ++ text ++ ")" ++ rest, fault)

/-- The sign before a condition. -/
def signText (positive : Bool) : String := if positive then "" else "!"

/-- Prints the conditions of one sign. -/
def conditions (positive first : Bool) (cs : List Tree) : PrintedConditions :=
  match tidy cs with
  | (cs, some e) => ⟨"", cs, .error e⟩
  | ([], none) => ⟨"", [], .ok false⟩
  | (cs, none) =>
    let lead := if first then " (when (and (" else " ("
    match listed (signText positive) cs with
    | (text, some e) => ⟨lead ++ text, cs, .error e⟩
    | (text, none) => ⟨lead ++ text, cs, .ok first⟩

/-- Prints a guard, and closes its conjunction if there is one. -/
def guard (g : Guard) : PrintedGuard :=
  let p := printBoth conditions g
  match p.outcome with
  | .ok true => { p with text := p.text ++ ")" }
  | _ => p

end Pdkb
end Epistemic
