import Epistemic.Action.Declaration
import Epistemic.Task.Basic
/-!
# Reading a domain

A domain is a list of sections behind the word `define`. Each section is a list that a keyword heads. A section that
cannot be read stops the reading, and what was read before it stays.
-/
namespace Epistemic
namespace Domain

/-- A domain as far as it was read, with what is reported and what stopped the reading. -/
structure Read where
  domain : Domain
  report : String := ""
  fault : Option Fault := none

/-- The requirements that can be met in every domain. -/
def supportedAlways : List String :=
  [":strips", ":negative-preconditions", ":typing", ":no-duplicates", ":mep"]

/-- The requirements that can be met. -/
def supported : Dialect → List String
  | .levels => supportedAlways
  | .groups => supportedAlways ++ ["custom-pem"]

/-- What stops the reading of requirements: the first that cannot be met. -/
def requirementFault (dialect : Dialect) : List Tree → Option Fault
  | [] => none
  | .list _ :: _ => some .listForName
  | .word r :: rs =>
    if (supported dialect).contains r then requirementFault dialect rs
    else some (.refused (.requirement r))

/-- Reads the name of a domain. -/
def readName (d : Domain) : List Tree → Read
  | [] => { domain := d, fault := some .missingItem }
  | name :: _ => { domain := { d with name } }

/-- Reads requirements. -/
def readRequirements (dialect : Dialect) (d : Domain) (ts : List Tree) : Read :=
  match requirementFault dialect ts with
  | some e => { domain := d, fault := some e }
  | none => { domain := { d with requirements := ts } }

/-- Reads an action. -/
def readAction (dialect : Dialect) (d : Domain) (ts : List Tree) : Read :=
  let done := Action.declare dialect (d.actions.map Action.name) d.groups ts
  match done.outcome with
  | .error e => { domain := d, report := done.report, fault := some e }
  | .ok a => { domain := { d with actions := d.actions ++ [a] }, report := done.report }

/-- Reads objects that are the same in every problem. -/
def readConstants (d : Domain) (ts : List Tree) : Read :=
  let done := Hierarchy.declare ":constants" false ts d.objects
  { domain := { d with objects := done.hierarchy }, fault := done.fault }

/-- Reads predicates. -/
def readPredicates (d : Domain) (ts : List Tree) : Read :=
  let done := Signatures.declare ts d.predicates
  { domain := { d with predicates := done.signatures }, fault := done.fault }

/-- Reads types. A type that has subtypes is not declared as a subtype after that. -/
def readTypes (d : Domain) (ts : List Tree) : Read :=
  let done := Hierarchy.declare "types" true ts d.types
  { domain := { d with types := done.hierarchy }, fault := done.fault }

/-- Reads groups of observers. -/
def readGroups (d : Domain) (ts : List Tree) : Read :=
  let done := declareGroups ts d.groups
  { domain := { d with groups := done.groups }, fault := done.fault }

/-- Reads a section: its keyword, and what stands behind it. -/
def readBehind (dialect : Dialect) (d : Domain) (keyword : Tree) (ts : List Tree) : Read :=
  if keyword.isWord "domain" then d.readName ts
  else if keyword.isWord ":requirements" then d.readRequirements dialect ts
  else if keyword.isWord ":constants" then d.readConstants ts
  else if keyword.isWord ":predicates" then d.readPredicates ts
  else if keyword.isWord ":types" then d.readTypes ts
  else if keyword.isWord ":action" then d.readAction dialect ts
  else if keyword.isWord ":obs_groups" && dialect == .groups then d.readGroups ts
  else { domain := d, report := keyword.shown ++ " is not recognized in domain\n" }

/-- Reads a section. -/
def readSection (dialect : Dialect) (d : Domain) : Tree → Read
  | .word _ => { domain := d, fault := some .wordForList }
  | .list [] => { domain := d, fault := some .missingItem }
  | .list (keyword :: ts) => d.readBehind dialect keyword ts

/-- Reads sections up to one that cannot be read. -/
def readSections (dialect : Dialect) (d : Domain) : List Tree → Read
  | [] => { domain := d }
  | t :: ts =>
    let first := d.readSection dialect t
    match first.fault with
    | some _ => first
    | none =>
      let rest := first.domain.readSections dialect ts
      { rest with report := first.report ++ rest.report }

end Domain
end Epistemic
