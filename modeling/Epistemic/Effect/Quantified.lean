import Epistemic.Effect.Reading
import Epistemic.Text.Template
/-!
# Quantified observers

A marked variable stands for any agent. Its clause is printed for an agent by putting the name in place of the marks of
a copy; the name is a replacement template, in which a backslash is an escape.
-/
namespace Epistemic

/-- Whether a tree is a quantified variable. -/
def isMarked (t : Tree) : Bool := t.mentions "FASTART"

/-- Replaces the marked variables of a word. -/
def fillMarks (new : List Char → List Char) (w : String) : String :=
  String.ofList (Text.replaceMarked "FASTART".toList "FASTOP".toList new w.toList)

/-- A word of a condition with the agent in place of marked variables. -/
def fillWord (agent : String) (t : Tree) : Except Fault Tree :=
  match Text.template agent.toList, t with
  | .error .malformed, _ => .error .template
  | .error .unknownName, _ => .error .missingItem
  | .ok _, .list _ => .error .listForName
  | .ok parts, .word w => .ok (.word (fillMarks (Text.fillIn parts) w))

/-- Puts the agent in place of what is marked at one place of one condition. The change is made in the first condition
that is the same. -/
def fillAt (agent : String) (condition place : Nat) (cs : List Tree) : Except Fault (List Tree) :=
  match cs[condition]? with
  | none => .ok cs
  | some c =>
    match c.items[place]? with
    | none => .ok cs
    | some t =>
      if isMarked t then
        (fillWord agent t).map fun new =>
          cs.set (cs.idxOf c) (.list (c.items.set (c.items.idxOf t) new))
      else .ok cs

/-- The places of one condition, filled in order. -/
def fillCondition (agent : String) (cs : List Tree) (condition : Nat) : Except Fault (List Tree) :=
  (List.range ((cs[condition]?.map (·.items.length)).getD 0)).foldlM
    (fun cs place => fillAt agent condition place cs) cs

/-- Conditions with the agent in place of marked variables. -/
def fillConditions (agent : String) (cs : List Tree) : Except Fault (List Tree) :=
  (List.range cs.length).foldlM (fillCondition agent) cs

/-- A condition as a list of its items. -/
def itemized (c : Tree) : Tree := .list c.items

/-- The parts of a clause, each but the first with its items itemized, and an empty list behind them. -/
def itemizedParts : List Tree → List Tree
  | [] => [.list []]
  | body :: parts => itemized body :: parts.map (fun p => .list (p.items.map itemized)) ++ [.list []]

/-- The guard among the parts of a clause. -/
def Guard.ofParts (parts : List Tree) : Guard :=
  ⟨parts[1]?.elim [] Tree.items, parts[2]?.elim [] Tree.items⟩

/-- The guard of a copy of a clause. -/
def Clause.copiedGuard (c : Clause) : Guard := .ofParts (itemizedParts c.tree.items)

/-- A guard with the agent in place of marked variables. -/
def Guard.filled (agent : String) (g : Guard) : Except Fault Guard := do
  let positive ← fillConditions agent g.positive
  let negative ← fillConditions agent g.negative
  return ⟨positive, negative⟩

end Epistemic
