import Epistemic.Fault
/-!
# Sample tasks

Planning files of any size, to try the readers and printers on. Their number of agents is free. The types of the sample
domains are declared in an order that reading refuses.
-/
namespace Epistemic
namespace Sample

/-- Lines of text, each ended. -/
def text (lines : List String) : String := String.join (lines.map (· ++ "\n"))

/-- The names of agents. -/
def agents (n : Nat) : List String := (List.range n).map fun i => "ag" ++ toString i

/-- The first lines of the sample domain. -/
def domainLines : List String := [
  "(define (domain bench)",
  "  (:requirements :strips :negative-preconditions :typing :no-duplicates :mep)",
  "  (:types loc tool - thing thing - object)",
  "  (:constants hammer - tool)",
  "  (:predicates (opened) (tail) (flag ?a - agent) (mark ?a - agent)",
  "               (own ?a - agent ?t - thing) (at ?a - agent ?l - loc) (untyped ?u))",
  "",
  "  (:action open",
  "    :act_type ontic",
  "    :parameters (?ag - agent)",
  "    :precondition (and ([?ag](flag ?ag)) (flag ?ag) (not (opened))",
  "                       ([?ag](and (flag ?ag) (tail))))",
  "    :effect (and (opened) (tail) (flag ?ag) (mark ?ag)",
  "                 (when (and (flag ?ag) (mark ?ag) (not (tail))) (mark ?ag))",
  "                 (when (not (mark ?ag)) (not (flag ?ag))))",
  "    :observers (and (forall (diff (?o) (?ag)) (when (flag ?o) (?o))) (?ag))",
  "    :derive (always)",
  "    :exp_effect (and (opened))",
  "  )",
  "",
  "  (:action peek",
  "    :act_type sensing",
  "    :parameters (?ag ?ag2 - agent)",
  "    :precondition (and ([?ag](opened)) (opened) (flag ?ag)",
  "                       ([?ag ?ag2](and (opened) (tail))))",
  "    :effect (when (flag ?ag) (tail))",
  "    :observers (and (when (flag ?ag) (?ag)) (?ag))",
  "    :p_observers (and (when (mark ?ag2) (?ag2)) (?ag2))",
  "  )",
  "",
  "  (:action shout",
  "    :act_type announcement",
  "    :parameters (?ag - agent)",
  "    :precondition (and ([?ag](tail)) (tail))",
  "    :effect (tail)",
  "    :observers (and (forall (?o) (when (flag ?o) (?o))) (?ag))",
  "    :p_observers (and (forall (diff (?p) (?ag)) (when (not (flag ?p)) (?p))))",
  "  )",
  "",
  "  (:action distract",
  "    :parameters (?a ?b - agent)",
  "    :precondition (and ([?a ?b](flag ?a)) ([?a](not (flag ?b))) (not (mark ?b)))",
  "    :effect (not (flag ?b))",
  "    :observers (?a ?b)",
  "    :unknownkey (ignored)",
  "  )",
  "",
  "  (:action nohint",
  "    :parameters (?a - agent)",
  "    :precondition (flag ?a)",
  "    :effect (flag ?a)",
  "    :observers (and (forall (?z) (when (not (flag ?z)) (?z))))",
  "  )",
  "",
  "  (:action carry",
  "    :parameters (?a - agent ?t - thing)",
  "    :precondition (flag ?a)",
  "    :effect (own ?a ?t)",
  "    :observers (?a)",
  "  )"]

/-- An action of no consequence. -/
def idleAction (i : Nat) : List String := [
  "  (:action noop" ++ toString i,
  "    :parameters (?x - agent)",
  "    :precondition (flag ?x)",
  "    :effect (and (flag ?x) (not (mark ?x)))",
  "    :observers (?x)",
  "  )"]

/-- The last lines of the sample domains. -/
def lastLines : List String := ["  (:unknownsection foo)", ")"]

/-- The sample domain, with some idle actions. -/
def domain (idle : Nat) : String :=
  text (domainLines ++ (List.range idle).flatMap idleAction ++ lastLines)

/-- The first lines of the sample domain with groups of observers. -/
def groupDomainLines : List String := [
  "(define (domain benchpem)",
  "  (:requirements :strips :negative-preconditions :no-duplicates :mep)",
  "  (:types loc tool - thing thing - object)",
  "  (:constants hammer - tool)",
  "  (:obs_groups (fully) (partially))",
  "  (:predicates (opened) (tail) (flag ?a - agent)",
  "               (own ?a - agent ?t - thing) (untyped ?u))",
  "",
  "  (:action open",
  "    :act_type ontic",
  "    :parameters (?ag - agent)",
  "    :precondition (and ([?ag](flag ?ag)) (flag ?ag) (not (opened))",
  "                       ([?ag](and (flag ?ag) (tail))))",
  "    :effect (and (opened) (when (and (flag ?ag) (not (tail))) (not (tail)))",
  "                 (when (not (flag ?ag)) (flag ?ag)))",
  "    :observers \x7bfully\x7d (and (forall (diff (?o) (?ag)) (when (flag ?o) (?o))) (?ag))",
  "    :observers \x7bpartially\x7d (and (forall (?p) (?p)))",
  "    :derive (always)",
  "    :exp_effect (and (opened))",
  "    :unknownkey (ignored)",
  "  )",
  "",
  "  (:action peek",
  "    :act_type sensing",
  "    :parameters (?ag ?ag2 - agent)",
  "    :precondition (and (opened) ([?ag ?ag2](and (opened) (tail))))",
  "    :effect (tail)",
  "    :observers \x7bfully\x7d (?ag)",
  "    :observers \x7bpartially\x7d (?ag2)",
  "  )",
  "",
  "  (:action shout",
  "    :act_type announcement",
  "    :parameters (?ag - agent ?u)",
  "    :precondition (tail)",
  "    :effect (tail)",
  "    :observers \x7bfully\x7d (and (forall (?o) (when (not (flag ?o)) (?o))) (?ag))",
  "  )",
  "",
  "  (:action carry",
  "    :parameters (?a - agent ?t - thing)",
  "    :precondition (flag ?a)",
  "    :effect (own ?a ?t)",
  "    :observers \x7bfully\x7d (?a)",
  "  )"]

/-- The sample domain with groups of observers. -/
def groupDomain : String := text (groupDomainLines ++ lastLines)

/-- Blanks between words. -/
def words (ws : List String) : String := String.intercalate " " ws

/-- What the agents believe in common. -/
def common (ags : List String) (formula : String) : String := "([" ++ words ags ++ "]" ++ formula ++ ")"

/-- That an agent has a flag. -/
def flag (ag : String) : String := "(flag " ++ ag ++ ")"

/-- The objects of the sample problems. -/
def objectLine : String := "  (:objects room1 room2 - loc wrench - tool plain)"

/-- The sample problem, which needs an agent. -/
def problem (n : Nat) (depth : Int) : Except Fault String :=
  let ags := agents n
  match ags with
  | [] => .error .missingItem
  | first :: _ => .ok (text [
      "(define (problem pb)",
      "  (:domain bench)",
      "  (:requirements :strips)",
      objectLine,
      "  (:agents " ++ words ags ++ ")",
      "  (:depth " ++ toString depth ++ ")",
      "  (:init " ++ words (["(tail)", "(opened)"] ++ ags.map flag ++ ags.map (fun ag => common ags (flag ag)) ++
        [common ags "(not (opened))", common ags (common ags "(tail)")]) ++ ")",
      "  (:goal ([" ++ first ++ "](opened)) (tail) (not (mark " ++ first ++ ")))",
      "  (:unknown foo)",
      ")"])

/-- The last part of a path. -/
def lastPart (path : String) : String := String.ofList (path.toList.reverse.takeWhile (· != '/')).reverse

/-- The sample problem with groups of observers, which asks for a domain file. It needs an agent. -/
def groupProblem (n : Nat) (domainFile : String) : Except Fault String :=
  let ags := agents n
  match ags with
  | [] => .error .missingItem
  | first :: _ => .ok (text [
      "\x7binclude: " ++ lastPart domainFile ++ "\x7d",
      "(define (problem pbpem)",
      "  (:domain benchpem)",
      "  (:requirements :strips)",
      objectLine,
      "  (:agents " ++ words ags ++ ")",
      "  (:depth 2)",
      "  (:init " ++ words (["(tail)"] ++ ags.map flag ++
        [common ags (flag first), common ags "(not (opened))", common ags (common ags "(tail)")]) ++ ")",
      "  (:goal ([" ++ first ++ "](opened)) (tail) (not (flag " ++ first ++ ")))",
      "  (:unknown foo)",
      ")"])

/-- How many characters each text has, and all texts up to it. -/
def lengths : (before : Nat) → List String → List (Nat × Nat)
  | _, [] => []
  | n, t :: ts => (t.length, n + t.length) :: lengths (n + t.length) ts

end Sample
end Epistemic
