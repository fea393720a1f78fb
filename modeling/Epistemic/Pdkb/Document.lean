import Epistemic.Draft
import Epistemic.Pdkb.Action
import Epistemic.Task.Basic
import Epistemic.Text.Numeral
/-!
# Documents in PDKB

A task is written as two documents, one for the domain and one for the problem. The initial state is written out once
for each depth of belief: what all agents commonly believe becomes, at depth `k`, a formula that quantifies over `k`
agents.
-/
namespace Epistemic
namespace Pdkb

open Draft (write)

/-- What every document says first. -/
def header : String :=
  ";This file is automatically generated from an E-PDDL specification and follows the PDKB-PDDL syntax.\n\n"

/-- The line that ends a section. -/
def rule : String := ";;;;;;;;;;;;;;;;;;;;;;;;;;;;;;;;;;;;;;;;;;;;;;;;;;;;;;;;;;;;;;;;\n"

/-- A name, which must not be a list. -/
def nameIn (t : Tree) : Work Draft String := Work.ofExcept t.name

/-- The declaration of agents. -/
def agentDeclaration (d : Domain) : Work Draft Unit := do
  write "\t(:agents"
  Work.each (fun ag => do write (" " ++ (← nameIn ag))) (← Work.ofExcept d.agents)
  write ")\n\n"

/-- Writes the subtypes of a type, where `count` types were written before. A line ends behind the one that has as many
before it as the type has others. -/
def subtypes (size : Nat) : (count : Nat) → List Tree → Work Draft Nat
  | count, [] => pure count
  | count, t :: ts => do
    write ("\n\t  " ++ (← nameIn t))
    if count + 1 == size then
      write "\n\t"
    subtypes size (count + 1) ts

/-- Writes types, where `count` were written before. -/
def typesFrom : (count : Nat) → Hierarchy → Work Draft Unit
  | _, [] => pure ()
  | count, (_, ts) :: rest => do
    typesFrom (← subtypes ts.length count ts) rest

/-- The declaration of types. -/
def typeDeclaration (d : Domain) : Work Draft Unit := do
  write "\t(:types"
  typesFrom 0 d.types
  write ")\n\n"

/-- A predicate with its typed variables. -/
def predicate (name : String) (vars : Catalog Tree) : Work Draft Unit := do
  write (" (" ++ name)
  Work.each (fun (v, type) => do
    write (" " ++ v ++ " - ")
    write (← nameIn type)) vars
  write ")"

/-- The declaration of predicates. -/
def predicateDeclaration (d : Domain) : Work Draft Unit := do
  write "\t(:predicates"
  Work.each (fun (name, vars) => predicate name vars) d.predicates
  write ")\n\n"

/-- Prints actions in turn, the first of which has a place in the task. -/
def actionsFrom : (place : Nat) → List Action → Work Draft Unit
  | _, [] => pure ()
  | i, a :: as => do
    Draft.print action (some i) a
    actionsFrom (i + 1) as

/-- The document of a domain. -/
def domainDocument (name : String) (d : Domain) : Work Draft Unit := do
  write (header ++
    ";;;;;;;;;;;;;;;;;;;;    DOMAIN'S FEATURES    ;;;;;;;;;;;;;;;;;;;\n\n" ++
    "(define (domain " ++ name ++ ")\n\n")
  agentDeclaration d
  write "\t(:constants)\n\n"
  typeDeclaration d
  predicateDeclaration d
  write (rule ++ "\n\n" ++
    ";;;;;;;;;;;;;;;;;    ACTIONS' SPECIFICATIONS    ;;;;;;;;;;;;;;;;\n\n")
  actionsFrom 0 d.actions
  write (rule ++ "\n\n" ++ ")")

/-- How many commas a tree has: letters of a word or items of a list. -/
def commas (t : Tree) : Nat := t.items.count (.word ",")

/-- The variable that stands for an agent. -/
def agentVariable (i : Nat) : String := "?ag" ++ toString i

/-- The quantifiers over so many agents, each in a line of its own. -/
def quantifiers (depth : Nat) : String :=
  String.join ((List.range depth).map fun i =>
    "\t\t(forall " ++ agentVariable (i + 1) ++ " - agent\n" ++ String.ofList (List.replicate (i + 1) '\t'))

/-- The operators of so many quantified agents, from the last to the first. -/
def quantifiedOperators (depth : Nat) : List Tree :=
  (List.range depth).reverse.map fun i => .word ("B(" ++ agentVariable (i + 1) ++ ",")

/-- A formula of the initial state that says nothing of all agents. It is written at depth one only. -/
def plainInitial (depth : Nat) (t : Tree) : Except Fault String :=
  if depth == 1 then (formula t).map fun text => "\t\t(" ++ text ++ ")" else .ok ""

/-- A formula of the initial state with quantified agents for all agents. They stand before all else. -/
def quantifiedInitial (depth : Nat) (t operator : Tree) : Except Fault String :=
  (formula (.list (quantifiedOperators depth ++ t.items.erase operator))).map fun text =>
    quantifiers depth ++ "\t\t" ++ text ++ closings depth

/-- A formula of the initial state at some depth. An operator speaks of all agents if it has as many commas as there
are agents; a formula with several of them is written as it is. -/
def initial (agents : Except Fault (List Tree)) (depth : Nat) (t : Tree) : Except Fault String :=
  let operators := t.items.filter Tree.hasCommonBelief
  if operators.isEmpty then plainInitial depth t
  else match agents with
    | .error e => .error e
    | .ok agents =>
      match operators.filter fun o => commas o == agents.length with
      | [] => plainInitial depth t
      | [operator] => quantifiedInitial depth t operator
      | _ => (formula t).map fun text => "\t\t(" ++ text ++ ") "

/-- The depth as it is written. -/
def depthText : Depth → String
  | .standard => "2"
  | .declared t => t.shown

/-- The depth as a number. -/
def depthNumber : Depth → Except Fault Int
  | .standard => .ok 2
  | .declared (.list _) => .error .listForName
  | .declared (.word w) =>
    match Text.readInteger? w with
    | some n => .ok n
    | none => .error .notANumeral

/-- The objects of a type. -/
def objectLine (type : String) (objects : List Tree) : String :=
  "\t\t" ++ String.join (objects.map fun o => o.shown ++ " ") ++ "- " ++ type ++ "\n"

/-- The declaration of objects that are not agents. It is left out if all objects have one type. -/
def objectDeclaration (objects : Hierarchy) : String :=
  if objects.length > 1 then
    "\n\t(:objects\n" ++
    String.join ((objects.filter fun (type, _) => type != "agent").map fun (type, os) => objectLine type os) ++
    "\t)\n"
  else ""

/-- The initial state at one depth. -/
def initialAt (agents : Except Fault (List Tree)) (state : List Tree) (depth : Nat) : Work Draft Unit := do
  write ("\n\n\t\t;Depth " ++ toString depth)
  Work.each (fun t => do
    let text ← Work.ofExcept (initial agents depth t)
    if text != "" then
      write ("\n\n" ++ text)) state

/-- The initial state at all depths. -/
def initialSection (agents : Except Fault (List Tree)) (depth : Depth) (state : List Tree) : Work Draft Unit := do
  write "\n\t(:init-type complete)"
  write "\n\t(:init"
  let n ← Work.ofExcept (depthNumber depth)
  Work.each (fun i => initialAt agents state (i + 1)) (List.range n.toNat)
  write "\n\t)\n"

/-- One goal. -/
def goal (t : Tree) : Work Draft Unit := do
  let text ← Work.ofExcept (formula t)
  write ("\n\t  " ++ text)

/-- The goals. -/
def goalSection (p : Problem) : Work Draft Unit := do
  write "\n\t(:goal "
  Work.each goal p.positiveGoals
  Work.each goal p.negativeGoals
  write "\n\t)\n)"

/-- The document of a problem. -/
def problemDocument (name : String) (p : Problem) (t : Task) : Work Draft Unit := do
  write header
  let d ← Work.ofExcept t.needDomain
  let domainName ← nameIn d.name
  write ("\x7binclude:" ++ domainName ++ ".pdkbpddl\x7d\n\n" ++
    "(define (problem " ++ name ++ ")\n" ++
    "\n\t(:domain " ++ domainName ++ ")\n")
  let depth := t.depth.getD .standard
  write ("\n\t(:depth " ++ depthText depth ++ ")\n" ++
    objectDeclaration d.objects ++
    "\n\t(:projection )\n" ++
    "\n\t(:task valid_generation)\n")
  initialSection d.agents depth p.state
  goalSection p

end Pdkb
end Epistemic
