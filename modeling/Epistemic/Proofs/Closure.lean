import Epistemic.Proofs.Filling
import Epistemic.Proofs.GroundActions
import Epistemic.Proofs.Parsed
/-!
# Variables that ground actions are left with

A ground action names a parameter of its action exactly where filling in does not look: in a list that does not stand
behind an operator, as the last agent of an operator of several, and next to a sign in an operator.
-/
namespace Epistemic

open Assignment (insideOperator agentsBeforeLast)

/-! ## Names -/

/-- The parts of a word that is written as an operator: what stands before its agents, the agents, and what stands
behind its last comma. -/
def operatorParts? (w : String) : Option (List Char × List (List Char) × List Char) := do
  let (before, rest) ← Text.splitFirst? ['('] w.toList
  let (agents, after) ← Text.splitLast? [','] rest
  some (before, Text.splitOn (· == ',') agents, after)

/-- The names in a word: the agents of an operator, and the word itself if it is none. -/
def wordNames (w : String) : List String :=
  if Literals.isOperator (.word w) then
    (operatorParts? w).elim [] fun (_, agents, _) => agents.map String.ofList
  else [w]

/-- The agents of an operator that are not looked up.  One agent is found if nothing stands around the operator.  Of
several, the last is never found, and the first only if nothing stands before the mark. -/
def overlookedAgents (w : String) : List String :=
  match operatorParts? w with
  | none => []
  | some (before, agents, after) =>
    if (Tree.word w).hasBelief then
      if before = ['B'] ∧ agents.length = 1 ∧ after = [] then [] else agents.map String.ofList
    else if (Tree.word w).hasCommonBelief then
      ((if before = ['C'] then [] else agents.head?.toList) ++ agents.getLast?.toList).map String.ofList
    else []

namespace Tree

mutual
/-- The names in a formula. -/
def names : Tree → List String
  | .word w => wordNames w
  | .list ts => namesOf ts
/-- The names in some formulas. -/
def namesOf : List Tree → List String
  | [] => []
  | t :: ts => names t ++ namesOf ts
end

mutual
/-- The names in the lists of a formula that are passed over: those that do not stand behind an operator. -/
def passedNames (behind : Bool) : Tree → List String
  | .word _ => []
  | .list ts => if behind then passedNamesOf false ts else namesOf ts
/-- The names in the lists among some items that are passed over. -/
def passedNamesOf (behind : Bool) : List Tree → List String
  | [] => []
  | t :: ts => passedNames behind t ++ passedNamesOf t.isOperatorWord ts
end

mutual
/-- The agents that are overlooked in the operators that are reached. -/
def overlookedNames (behind : Bool) : Tree → List String
  | .word w => overlookedAgents w
  | .list ts => if behind then overlookedNamesOf false ts else []
/-- The agents that are overlooked in the operators among some items. -/
def overlookedNamesOf (behind : Bool) : List Tree → List String
  | [] => []
  | t :: ts => overlookedNames behind t ++ overlookedNamesOf t.isOperatorWord ts
end

end Tree

/-! ## Agents -/

section
variable {σ : Assignment} {w v : String} {before agents after : List Char} {mark : Char}

theorem IsOperatorWord.operatorParts?_eq (h : IsOperatorWord w before mark agents after) :
    operatorParts? w = some (before ++ [mark], Text.splitOn (· == ',') agents, after) := by
  obtain ⟨⟨hbefore, -, -⟩, -, -, hafter⟩ := h.not_mem
  have hfirst : Text.splitFirst? ['('] w.toList = some (before ++ [mark], agents ++ ',' :: after) := by
    rw [h.eq, List.append_cons]
    exact Text.splitFirst?_singleton (by simp [hbefore, h.mark_ne.symm])
  simp [operatorParts?, hfirst, Source.splitLast?_append hafter]

theorem Text.splitOn_eq_singleton {isSeparator : Char → Bool} : ∀ {cs run : List Char},
    Text.splitOn isSeparator cs = [run] → run = cs
  | [], run, h => by
    rw [Text.splitOn] at h
    exact (List.singleton_inj.1 h).symm
  | c :: cs, run, h => by
    obtain ⟨first, runs, hcs⟩ := Text.exists_splitOn_eq_cons isSeparator cs
    rw [Text.splitOn, hcs] at h
    split at h
    · cases h
    · obtain ⟨rfl, rfl⟩ := List.cons.inj h
      rw [Text.splitOn_eq_singleton hcs]

/-- An operator of one agent in which no variable is found names none, unless it is overlooked. -/
theorem IsOperatorWord.mem_agents_belief (h : IsOperatorWord w before 'B' agents after) (hclosed : σ.BeliefClosed w)
    (hv : .word v ∈ σ.vars) (hne : v.toList ≠ []) : v ∈ wordNames w ↔ v ∈ overlookedAgents w := by
  have hbelief := h.hasBelief_iff.2 rfl
  simp only [wordNames, overlookedAgents, h.isOperator, h.operatorParts?_eq, hbelief, Option.elim_some, if_true]
  split
  · rename_i hfound
    obtain ⟨hbefore, hlength, rfl⟩ := hfound
    obtain rfl : before = [] := by simpa using hbefore
    obtain ⟨run, hrun⟩ := List.length_eq_one_iff.1 hlength
    obtain rfl := Text.splitOn_eq_singleton hrun
    simp only [hrun, List.map_cons, List.map_nil, List.mem_singleton, List.not_mem_nil, iff_false]
    rintro rfl
    rw [String.toList_ofList] at hne
    refine hclosed hbelief ?_
    rwa [h.insideOperator_eq rfl, if_neg hne, List.nil_append, List.append_nil]
  · rfl

/-- An operator of several agents in which no variable is found names none, unless it is overlooked. -/
theorem IsOperatorWord.mem_agents_common (h : IsOperatorWord w before 'C' agents after) (hclosed : σ.CommonClosed w)
    (hv : .word v ∈ σ.vars) (hne : v.toList ≠ []) : v ∈ wordNames w ↔ v ∈ overlookedAgents w := by
  have hbelief : (Tree.word w).hasBelief = false := Bool.eq_false_iff.2 fun hb => by cases h.hasBelief_iff.1 hb
  have hcommon := h.hasCommonBelief_iff.2 rfl
  obtain ⟨-, -, hbefore, hafter⟩ := h.not_mem
  have hseparator : ∀ {cs : List Char}, ',' ∉ cs → ∀ c ∈ cs, (c == ',') = false := fun hcs c hc =>
    beq_false_of_ne (ne_of_mem_of_not_mem hc hcs)
  obtain ⟨p, ps, hagents, hfront⟩ := Text.splitOn_append_left agents (hseparator hbefore)
  obtain ⟨runs, last, hruns, hwhole⟩ := Text.splitOn_append_right (hseparator hafter) (before ++ agents)
  rw [hfront] at hruns
  -- the agents before the last are looked up
  have hfound : ∀ r ∈ runs, String.ofList r ≠ v := by
    rintro r hr rfl
    rw [String.toList_ofList] at hne
    have hnonempty : agents ≠ [] := by
      rintro rfl
      rw [Text.splitOn] at hagents
      obtain ⟨rfl, rfl⟩ := List.cons.inj hagents
      cases runs with
      | nil => cases hr
      | cons q qs => simp at hruns
    refine hclosed hcommon (String.ofList r) ?_ hv
    rw [agentsBeforeLast, h.insideOperator_eq rfl, if_neg hnonempty, String.toList_ofList, hwhole]
    exact List.mem_map_of_mem (List.mem_filter.2 ⟨by simpa using hr, by simpa using hne⟩)
  simp only [wordNames, overlookedAgents, h.isOperator, h.operatorParts?_eq, hbelief, hcommon, hagents,
    Option.elim_some, if_true, Bool.false_eq_true, if_false]
  cases runs with
  | nil =>
    obtain ⟨rfl, rfl⟩ := List.cons.inj hruns
    split <;> simp
  | cons q qs =>
    rw [List.cons_append, List.cons.injEq] at hruns
    obtain ⟨rfl, rfl⟩ := hruns
    have hmiddle : v ∉ qs.map String.ofList := fun hm => by
      obtain ⟨r, hr, hrv⟩ := List.mem_map.1 hm
      exact hfound r (List.mem_cons_of_mem _ hr) hrv
    have hlast : (p :: (qs ++ [last])).getLast? = some last := by rw [← List.cons_append, List.getLast?_concat]
    rw [hlast, List.map_cons, List.map_append, List.mem_cons, List.mem_append]
    by_cases hnone : before = []
    · subst hnone
      have hp : v ≠ String.ofList p := fun hv => hfound ([] ++ p) List.mem_cons_self hv.symm
      simp [hp, hmiddle]
    · have hmark : before ++ ['C'] ≠ ['C'] := by simpa using hnone
      simp [hmark, hmiddle]

end

/-! ## Formulas -/

section
variable {σ : Assignment} {v : String}

theorem Assignment.WordFilled.mem_names {w u : String} (h : σ.WordFilled w u) (hv : .word v ∈ σ.vars)
    (hne : v.toList ≠ []) : v ∈ wordNames u ↔ v ∈ overlookedAgents u := by
  cases hop : Literals.isOperator (.word u) with
  | true =>
    obtain ⟨before, mark, agents, after, hform⟩ := h.spelled hop
    rcases hform.mark with rfl | rfl
    · exact hform.mem_agents_belief h.belief hv hne
    · exact hform.mem_agents_common h.common hv hne
  | false =>
    have hvu : v ≠ u := by
      rintro rfl
      exact h.closed hop hv
    have hkinds : (Tree.word u).hasBelief = false ∧ (Tree.word u).hasCommonBelief = false :=
      Bool.or_eq_false_iff.1 hop
    have hnone : overlookedAgents u = [] := by
      unfold overlookedAgents
      split
      · rfl
      · simp only [hkinds, Bool.false_eq_true, if_false]
    simp [wordNames, hop, hvu, hnone]

theorem Tree.Filled.isOperatorWord_eq {behind : Bool} : ∀ {t u : Tree}, Tree.Filled σ behind t u →
    u.isOperatorWord = t.isOperatorWord
  | .word _, .word _, h => h.kind.isOperator_eq
  | .list _, .list _, _ => rfl

mutual
theorem mem_names_of_filled (hv : .word v ∈ σ.vars) (hne : v.toList ≠ []) : ∀ {behind : Bool} {t u : Tree},
    Tree.Filled σ behind t u → (v ∈ u.names ↔ v ∈ t.passedNames behind ∨ v ∈ u.overlookedNames behind)
  | _, .word _, .word _, h => by simpa [Tree.names, Tree.passedNames, Tree.overlookedNames] using h.mem_names hv hne
  | true, .list _, .list _, h => mem_namesOf_of_filled hv hne h
  | false, .list ts, .list us, h => by
    obtain rfl : us = ts := h
    simp [Tree.names, Tree.passedNames, Tree.overlookedNames]
theorem mem_namesOf_of_filled (hv : .word v ∈ σ.vars) (hne : v.toList ≠ []) : ∀ {behind : Bool} {ts us : List Tree},
    Tree.FilledItems σ behind ts us →
      (v ∈ Tree.namesOf us ↔ v ∈ Tree.passedNamesOf behind ts ∨ v ∈ Tree.overlookedNamesOf behind us)
  | _, [], [], _ => by simp [Tree.namesOf, Tree.passedNamesOf, Tree.overlookedNamesOf]
  | _, _ :: _, _ :: _, h => by
    have hfirst := mem_names_of_filled hv hne h.1
    have hrest := mem_namesOf_of_filled hv hne h.2
    rw [← h.1.isOperatorWord_eq] at hrest
    simp only [Tree.namesOf, Tree.passedNamesOf, Tree.overlookedNamesOf, List.mem_append, hfirst, hrest,
      ← h.1.isOperatorWord_eq]
    exact or_or_or_comm
end

/-- **Where a variable is left in a formula that was filled in.** -/
theorem FilledIn.mem_names {known : Fluents} {before after : Tree} (h : FilledIn σ known before after) (hσ : σ.Plain)
    (hwords : before.AllWords IsSpelled) (hv : .word v ∈ σ.vars) :
    v ∈ after.names ↔ v ∈ Tree.passedNamesOf false before.items ∨ v ∈ Tree.overlookedNamesOf false after.items := by
  obtain ⟨l, l', hrun, -⟩ := h
  obtain ⟨us, rfl, hfilled⟩ :=
    filledItems_of_substituteWithin hσ true (before.depth + 1) before after l l' (Nat.lt_succ_self _) hwords hrun
  exact mem_namesOf_of_filled hv (hσ.isPlainWord hv).1 hfilled

end

/-! ## Actions -/

/-- Variables and the objects that they range over are plain words, and no object is a variable or holds a comma. -/
structure Ranges.Plain (ranges : Ranges) : Prop where
  vars : ∀ r ∈ ranges, ∃ v, r.1 = .word v ∧ Source.IsPlainWord v
  objects : ∀ r ∈ ranges, ∀ t ∈ r.2, ∃ o, t = .word o ∧ Source.IsPlainWord o ∧ ',' ∉ o.toList
  apart : ∀ r ∈ ranges, ∀ t ∈ r.2, t ∉ ranges.vars

theorem Ranges.Plain.assignment {ranges : Ranges} (h : ranges.Plain) {choice : List Tree}
    (hchoice : choice ∈ ranges.assignments) : Assignment.Plain ⟨ranges.vars, choice⟩ := by
  have hmem : ∀ t ∈ choice, ∃ r ∈ ranges, t ∈ r.2 := fun t ht => by
    obtain ⟨xs, hxs, ht⟩ := exists_of_mem_right (mem_choices_iff.1 hchoice).flip ht
    obtain ⟨r, hr, rfl⟩ := List.mem_map.1 hxs
    exact ⟨r, hr, ht⟩
  refine ⟨fun t ht => ?_, fun t ht => ?_, fun t ht => ?_⟩
  · obtain ⟨r, hr, rfl⟩ := List.mem_map.1 ht
    exact h.vars r hr
  · obtain ⟨r, hr, ht⟩ := hmem t ht
    exact h.objects r hr t ht
  · obtain ⟨r, hr, ht⟩ := hmem t ht
    exact h.apart r hr t ht

theorem Action.AllWords.formulas {P : String → Prop} {a : Action} (h : a.AllWords P) :
    ∀ c ∈ a.formulas, c.AllWords P := by
  have hguard : ∀ i, (guardAt a.guards i).AllWords P := fun i => by
    rw [guardAt, List.getD_eq_getElem?_getD]
    cases hi : a.guards[i]? with
    | none => exact ⟨by simp, by simp⟩
    | some g => exact h.effects.guards g (List.mem_of_getElem? hi)
  have hclauses : ∀ es : List Entry, (∀ e ∈ es, e.body.AllWords P) →
      ∀ c ∈ (a.clauses es).flatMap Clause.formulas, c.AllWords P := by
    intro es hes c hc
    obtain ⟨clause, hclause, hc⟩ := List.mem_flatMap.1 hc
    obtain ⟨e, he, rfl⟩ := List.mem_map.1 hclause
    rcases List.mem_cons.1 hc with rfl | hc
    · exact hes e he
    · exact (List.mem_append.1 hc).elim ((hguard e.guard).positive c) ((hguard e.guard).negative c)
  intro c hc
  simp only [Action.formulas, List.flatMap_append, List.mem_append] at hc
  rcases hc with (hc | hc) | hc | hc
  · exact (h.preconditions.positive c hc).1
  · exact h.preconditions.negative c hc
  · exact hclauses _ h.effects.positive c hc
  · exact hclauses _ h.effects.negative c hc

/-- **Which parameters a ground action is left with.**  In a formula of a ground action a parameter stands exactly if it
stands in a list of the action's formula that is not behind an operator, or is overlooked as an agent. -/
theorem Session.ground_names_parameter_iff {s : Session} (hs : s.Parsed) {d : Domain} (hd : s.task.domain = some d)
    {a : Action} (ha : a ∈ d.actions) {ranges : Ranges}
    (hranges : Ranges.read d.objects d.types a.parameters = .ok ranges) (hplain : ranges.Plain) {distinct : Bool}
    {place : Nat} {G : GroundAction}
    (hG : G ∈ ((a.ground .ok d.objects d.types distinct d.groups place).perform {}).2.actions) {v : String}
    (hv : .word v ∈ ranges.vars) :
    List.Forall₂ (fun c g => v ∈ g.names ↔
      v ∈ Tree.passedNamesOf false c.items ∨ v ∈ Tree.overlookedNamesOf false g.items) a.formulas
      G.action.formulas := by
  have hkeeps : (a.ground .ok d.objects d.types distinct d.groups place).Keeps
      (Grounding.From .ok d.objects d.types d.groups [a]) := keeps_ground (List.mem_singleton_self a) place
  obtain ⟨b, hb, hyields⟩ := hkeeps {} (fun _ hnone => nomatch hnone) G hG
  obtain rfl := List.mem_singleton.1 hb
  cases hyields with
  | itself _ hparameters =>
    rw [hparameters] at hranges
    cases hranges
    cases hv
  | filled _ hranges' hchoice hground _ hdone =>
    rw [hranges] at hranges'
    cases hranges'
    cases hdone
    have hfilled := (List.forall₂_and_left _ _).2
      ⟨(hs.scanned.domain d hd b ha).formulas, Action.forall₂_groundWith hground⟩
    exact hfilled.imp fun c g h => h.2.mem_names (hplain.assignment hchoice) h.1 hv

namespace Session

/-- A door that may be opened by who believes two things of it, one of which is about the believer. -/
def ajar : Session :=
  ((readProblem "p" (some "(define (problem p) (:agents ann) (:init) (:goal (open)))")).perform
    ((readDomain "d" (some "(define (domain d) (:action pull :parameters (?x - agent)
      :precondition ([?x](and (near ?x) (shut))) :effect (open)))")).perform { task := { dialect := .levels } }).2).2

/-- Grounding the action for the only agent leaves its parameter somewhere. -/
def staysAjar (d : Domain) (a : Action) : Bool :=
  d.objects.get? "agent" == some [.word "ann"] && a.parameters == [.list [.word "?x", .word "agent"]] &&
    ((a.groundEach .ok d.groups false [.word "?x"] [[.word "ann"]]).perform {}).2.actions.any fun G =>
      G.action.formulas.any fun g => g.names.contains "?x"

theorem ground_names_parameter_iff_ajar : ∃ d a ranges G, ajar.Parsed ∧ ajar.task.domain = some d ∧ a ∈ d.actions ∧
    Ranges.read d.objects d.types a.parameters = .ok ranges ∧ ranges.Plain ∧
    G ∈ ((a.ground .ok d.objects d.types false d.groups 0).perform {}).2.actions ∧ .word "?x" ∈ ranges.vars ∧
    List.Forall₂ (fun c g => "?x" ∈ g.names ↔
      "?x" ∈ Tree.passedNamesOf false c.items ∨ "?x" ∈ Tree.overlookedNamesOf false g.items)
      a.formulas G.action.formulas ∧
    ∃ g ∈ G.action.formulas, "?x" ∈ g.names := by
  have hparsed : ajar.Parsed := .problem (.domain (.fresh .levels) _ _) _ _
  have hstays : (ajar.task.domain.any fun d => d.actions.any (staysAjar d)) = true := by decide +kernel
  obtain ⟨d, hd, hactions⟩ := (Option.any_eq_true _ _).1 hstays
  obtain ⟨a, ha, hfacts⟩ := List.any_eq_true.1 hactions
  simp only [staysAjar, Bool.and_eq_true, beq_iff_eq, List.any_eq_true, List.contains_iff_mem] at hfacts
  obtain ⟨⟨hagents, hparameters⟩, G, hG, hleft⟩ := hfacts
  have hranges : Ranges.read d.objects d.types a.parameters = .ok [(.word "?x", [.word "ann"])] := by
    rw [hparameters, Ranges.read]
    simp only [Tree.items, instances, instancesWithin, hagents, Ranges.read]
    rfl
  have hplain : Ranges.Plain [(.word "?x", [.word "ann"])] := by
    refine ⟨?_, ?_, ?_⟩ <;> intro r hr <;> obtain rfl := List.mem_singleton.1 hr
    · exact ⟨"?x", rfl, by decide +kernel⟩
    all_goals intro t ht; obtain rfl := List.mem_singleton.1 ht
    · exact ⟨"ann", rfl, by decide +kernel, by decide +kernel⟩
    · decide +kernel
  have hG' : G ∈ ((a.ground .ok d.objects d.types false d.groups 0).perform {}).2.actions := by
    rw [Action.perform_ground (by rw [hparameters]; exact List.cons_ne_nil _ _) hranges]
    exact hG
  exact ⟨d, a, _, G, hparsed, hd, ha, hranges, hplain, hG', List.mem_singleton_self _,
    ground_names_parameter_iff hparsed hd ha hranges hplain hG' (List.mem_singleton_self _), hleft⟩

end Session
end Epistemic
