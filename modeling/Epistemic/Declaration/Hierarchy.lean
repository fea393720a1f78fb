import Epistemic.Catalog
import Epistemic.Fault
import Epistemic.Tree
/-!
# Typed declarations

`a b - t c` declares `a` and `b` under the type `t`, and `c`, which has no type behind it, under `object`. Types declare
their subtypes in this way and objects their instances; agents are declared without a type.
-/
namespace Epistemic

/-- What is declared under each type. -/
abbrev Hierarchy := Catalog (List Tree)

namespace Hierarchy

/-- A declaration as far as it was read: the hierarchy, the tokens that were left, and what stopped it. -/
structure Declared where
  hierarchy : Hierarchy
  left : List Tree := []
  fault : Option Fault := none

/-- Whether a name may be declared: with `once`, it must be a name that nothing is declared under yet. -/
def mayDeclare (once : Bool) (h : Hierarchy) : Tree → Except Fault Unit
  | .word name => if once && h.has name then .error (.refused (.secondSupertype name)) else .ok ()
  | .list _ => if once then .error .listForName else .ok ()

/-- Reads declarations, of which `batch` holds the names since the last type. -/
def declareFrom (place : String) (once : Bool) : (batch : List Tree) → List Tree → Hierarchy → Declared
  | batch, [], h => { hierarchy := if batch.isEmpty then h else h.extend "object" batch }
  | batch, t :: ts, h =>
    match mayDeclare once h t with
    | .error e => { hierarchy := h, left := t :: ts, fault := some e }
    | .ok () =>
      if t.isWord "-" then
        if batch.isEmpty then
          { hierarchy := h, left := t :: ts, fault := some (.refused (.hyphen place)) }
        else match ts with
          | [] => { hierarchy := h, fault := some .missingItem }
          | .list _ :: ts => { hierarchy := h, left := ts, fault := some .listForName }
          | .word type :: ts => declareFrom place once [] ts (h.extend type batch)
      else declareFrom place once (batch ++ [t]) ts h

/-- Adds the declarations of a list of tokens. -/
def declare (place : String) (once : Bool) (ts : List Tree) (h : Hierarchy) : Declared :=
  declareFrom place once [] ts h

/-- Reads names up to a hyphen, where `batch` holds those before. -/
def declareAgentsFrom (place : String) (once : Bool) : (batch : List Tree) → List Tree → Hierarchy → Declared
  | batch, [], h => { hierarchy := if batch.isEmpty then h else h.extend "agent" batch }
  | batch, t :: ts, h =>
    match mayDeclare once h t with
    | .error e => { hierarchy := h, left := t :: ts, fault := some e }
    | .ok () =>
      if t.isWord "-" then { hierarchy := h, left := t :: ts, fault := some (.refused (.hyphen place)) }
      else declareAgentsFrom place once (batch ++ [t]) ts h

/-- Adds the names of a list of tokens as agents. -/
def declareAgents (place : String) (once : Bool) (ts : List Tree) (h : Hierarchy) : Declared :=
  declareAgentsFrom place once [] ts h

/-- A word in place of a list of tokens. No token can be taken out of it, but its first letter is looked at. -/
def declareWord (place : String) (once : Bool) (w : String) (h : Hierarchy) : Declared :=
  match (Tree.word w).items with
  | [] => { hierarchy := h }
  | c :: cs =>
    let fault := match mayDeclare once h c with
      | .error e => e
      | .ok () => if c.isWord "-" then .refused (.hyphen place) else .wordForList
    { hierarchy := h, left := c :: cs, fault := some fault }

/-- Adds the declarations of a tree, or its names as agents. -/
def declareTree (asAgents : Bool) (place : String) (once : Bool) (t : Tree) (h : Hierarchy) : Declared :=
  match t with
  | .word w => declareWord place once w h
  | .list ts => if asAgents then declareAgents place once ts h else declare place once ts h

end Hierarchy
end Epistemic
