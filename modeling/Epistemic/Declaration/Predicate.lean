import Epistemic.Declaration.Hierarchy
/-!
# Typed variables and predicates

`?x ?y - t ?z` are variables with their types, where `object` is the type of those that have none behind them.
A predicate is a name followed by such variables.
-/
namespace Epistemic

/-- Typed variables as far as they were read: the pairs of a variable and its type, the tokens that were left, and
what stopped the reading. -/
structure TypedVariables where
  pairs : List (Tree × Tree) := []
  left : List Tree := []
  fault : Option Fault := none

namespace TypedVariables

/-- Gives the variables of a batch their type; with `named`, all must be words. -/
def addBatch (named : Bool) (pairs : List (Tree × Tree)) (batch : List Tree) (type : Tree) :
    Except Fault (List (Tree × Tree)) :=
  if named && batch.any Tree.isList then .error .listForName
  else .ok (pairs ++ batch.map fun v => (v, type))

/-- Reads typed variables, of which `batch` holds those since the last type. -/
def readFrom (place : String) (named : Bool) :
    (batch : List Tree) → (pairs : List (Tree × Tree)) → List Tree → TypedVariables
  | batch, pairs, [] =>
    match addBatch named pairs batch (.word "object") with
    | .ok pairs => { pairs }
    | .error e => { pairs, fault := some e }
  | batch, pairs, t :: ts =>
    if t.isWord "-" then
      if batch.isEmpty then { pairs, left := ts, fault := some (.refused (.hyphen place)) }
      else match ts with
        | [] => { pairs, fault := some .missingItem }
        | type :: ts =>
          match addBatch named pairs batch type with
          | .error e => { pairs, left := ts, fault := some e }
          | .ok pairs => readFrom place named [] pairs ts
    else readFrom place named (batch ++ [t]) pairs ts

/-- Reads typed variables. -/
def read (place : String) (named : Bool) (ts : List Tree) : TypedVariables := readFrom place named [] [] ts

end TypedVariables

/-- The variables of each predicate, with their types. -/
abbrev Signatures := Catalog (Catalog Tree)

namespace Signatures

/-- Predicates as far as they were read, with what was left of each declaration. -/
structure Declared where
  signatures : Signatures
  left : List Tree := []
  fault : Option Fault := none

/-- The variables filed by their names; a later type of the same variable wins. -/
def ofPairs : List (Tree × Tree) → Catalog Tree → Catalog Tree
  | [], c => c
  | (.word v, type) :: rest, c => ofPairs rest (c.insert v type)
  | (.list _, _) :: rest, c => ofPairs rest c

/-- Reads one predicate: the signatures, what is left of the declaration, and what stopped it. -/
def declareOne (s : Signatures) : Tree → Signatures × Tree × Option Fault
  | .word w => (s, .word w, some .wordForList)
  | .list [] => (s, .list [], some .missingItem)
  | .list (.list _ :: ts) => (s, .list ts, some .listForName)
  | .list (.word name :: ts) =>
    if s.has name then (s, .list ts, some (.refused (.secondPredicate name)))
    else
      let vars := TypedVariables.read "predicates" true ts
      match vars.fault with
      | some e => (s, .list vars.left, some e)
      | none => (s.insert name (ofPairs vars.pairs []), .list vars.left, none)

/-- Adds the predicates of a list of declarations. -/
def declare : List Tree → Signatures → Declared
  | [], s => { signatures := s }
  | t :: ts, s =>
    match declareOne s t with
    | (s, left, some e) => { signatures := s, left := left :: ts, fault := some e }
    | (s, left, none) =>
      let rest := declare ts s
      { rest with left := left :: rest.left }

end Signatures

/-- Observer groups as far as they were read, and what stopped the reading. -/
structure DeclaredGroups where
  groups : List Tree
  fault : Option Fault := none

/-- Adds the observer groups of a list of declarations, each the first item of a list. -/
def declareGroups : List Tree → (groups : List Tree) → DeclaredGroups
  | [], groups => { groups }
  | .word _ :: _, groups => { groups, fault := some .wordForList }
  | .list [] :: _, groups => { groups, fault := some .missingItem }
  | .list (name :: _) :: ts, groups =>
    if groups.contains name then
      match name with
      | .word text => { groups, fault := some (.refused (.secondGroup text)) }
      | .list _ => { groups, fault := some .listForName }
    else declareGroups ts (groups ++ [name])

end Epistemic
