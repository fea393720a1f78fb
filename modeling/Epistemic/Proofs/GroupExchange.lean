import Epistemic.Proofs.OperatorAgents
/-!
# Exchanging an operator of several agents

Of the agents of an operator only those before the last are looked up (`lookedUp`), and the operator is exchanged as a
whole for each of them that is a variable.  A second exchange does not find the operator any more, so it is changed once
or filling in stops: first the first object is written over the variable wherever its letters stand
(`fillOperator_common`), and then an operator that still has a variable to be looked up is collapsed
(`collapseOperator_group`).
-/
namespace Epistemic

open Source (IsPlainWord operatorName)
open Assignment (ofNames agentsBeforeLast exchange)

/-! ## Names of operators -/

/-- The name of an agent in an operator of several. -/
def IsAgentWord (a : String) : Prop := IsPlainWord a ∧ ',' ∉ a.toList

instance (a : String) : Decidable (IsAgentWord a) := inferInstanceAs (Decidable (_ ∧ _))

/-- A name with the letters of another replaced in it. -/
def overwritten (x o y : String) : String := String.ofList (Text.replaceAll x.toList o.toList y.toList)

namespace Text

theorem splitOn_intercalate {s : Char} {ls : List (List Char)} (hne : ls ≠ []) (h : ∀ l ∈ ls, s ∉ l) :
    splitOn (· == s) ([s].intercalate ls) = ls := by
  induction ls with
  | nil => exact absurd rfl hne
  | cons l ls ih =>
    obtain ⟨hl, hls⟩ := List.forall_mem_cons.1 h
    have hseparator : ∀ c ∈ l, (c == s) = false := fun c hc => beq_false_of_ne (ne_of_mem_of_not_mem hc hl)
    cases ls with
    | nil => simpa using splitOn_of_forall hseparator
    | cons m ls =>
      have hrest : splitOn (· == s) (s :: [s].intercalate (m :: ls)) = [] :: m :: ls := by
        rw [splitOn, ih (List.cons_ne_nil _ _) hls]
        simp
      obtain ⟨run, runs, hruns, hall⟩ := splitOn_append_left (s :: [s].intercalate (m :: ls)) hseparator
      rw [hrest] at hruns
      cases hruns
      simpa using hall

theorem replaceAll_intercalate {s : Char} {piece : List Char} (new : List Char) (hs : s ∉ piece) (hne : piece ≠ [])
    (ls : List (List Char)) :
    replaceAll piece new ([s].intercalate ls) = [s].intercalate (ls.map (replaceAll piece new)) := by
  induction ls with
  | nil => rfl
  | cons l ls ih =>
    cases ls with
    | nil => simp
    | cons m ls =>
      have hfirst := replaceAll_append_cons new hs hne l ([s].intercalate (m :: ls))
      rw [ih] at hfirst
      simpa using hfirst

theorem replaceAll_ne_nil {piece new cs : List Char} (hnew : new ≠ []) (hcs : cs ≠ []) :
    replaceAll piece new cs ≠ [] := by
  obtain ⟨c, cs, rfl⟩ := List.exists_cons_of_ne_nil hcs
  rw [replaceAll, replaceFrom]
  split
  · exact List.append_ne_nil_of_left_ne_nil hnew _
  · exact List.cons_ne_nil _ _

theorem replaceAll_self {piece : List Char} (new : List Char) (hne : piece ≠ []) :
    replaceAll piece new piece = new := by
  have hall := replaceAll_piece_append new [] hne
  rw [List.append_nil] at hall
  exact hall.trans (List.append_nil new)

end Text

theorem overwritten_self {x : String} (hx : x.toList ≠ []) (o : String) : overwritten x o x = o := by
  rw [overwritten, Text.replaceAll_self _ hx, String.ofList_toList]

theorem IsAgentWord.overwritten {x o y : String} (ho : IsAgentWord o) (hy : IsAgentWord y) :
    IsAgentWord (overwritten x o y) := by
  rw [IsAgentWord, IsPlainWord, Epistemic.overwritten, String.toList_ofList]
  refine ⟨⟨Text.replaceAll_ne_nil ho.1.1 hy.1.1, fun c hc => ?_⟩, fun hc => ?_⟩
  · exact (Text.mem_of_mem_replaceFrom hc).elim (ho.1.2 c) (hy.1.2 c)
  · exact (Text.mem_of_mem_replaceFrom hc).elim ho.2 hy.2

theorem toList_operatorName (agents : List String) : (operatorName agents).toList =
    (if agents.length ≤ 1 then 'B' else 'C') :: '(' :: ([','].intercalate (agents.map String.toList) ++ [',']) := by
  unfold operatorName
  rw [String.toList_append, String.toList_append, String.toList_intercalate]
  split <;> rfl

theorem splitOn_agents {agents : List String} (h : ∀ a ∈ agents, IsAgentWord a) (hne : agents ≠ []) :
    Text.splitOn (· == ',') ([','].intercalate (agents.map String.toList)) = agents.map String.toList := by
  refine Text.splitOn_intercalate (mt List.map_eq_nil_iff.1 hne) fun l hl => ?_
  obtain ⟨a, ha, rfl⟩ := List.mem_map.1 hl
  exact (h a ha).2

/-- **Operators that are written alike have the same agents.** -/
theorem operatorName_inj {as bs : List String} (has : ∀ a ∈ as, IsAgentWord a) (hbs : ∀ b ∈ bs, IsAgentWord b)
    (hne : as ≠ []) (hne' : bs ≠ []) : operatorName as = operatorName bs ↔ as = bs := by
  refine ⟨fun h => ?_, fun h => by rw [h]⟩
  have hlist := congrArg String.toList h
  rw [toList_operatorName, toList_operatorName, List.cons.injEq, List.cons.injEq] at hlist
  have hagents := congrArg (Text.splitOn (· == ',')) (List.append_cancel_right hlist.2.2)
  rw [splitOn_agents has hne, splitOn_agents hbs hne'] at hagents
  exact List.map_injective_iff.2 (fun _ _ => String.toList_inj.1) hagents

/-- **Writing over a name in an operator is writing over it in each agent.** -/
theorem overwritten_operatorName {x : String} (hx : IsAgentWord x) (o : String) (agents : List String) :
    overwritten x o (operatorName agents) = operatorName (agents.map (overwritten x o)) := by
  have hmark : ∀ {c : Char}, Source.isWordChar c = false → ∀ cs,
      Text.replaceAll x.toList o.toList (c :: cs) = c :: Text.replaceAll x.toList o.toList cs := fun hc cs =>
    Text.replaceAll_append_cons o.toList (hx.1.not_mem hc) hx.1.1 [] cs
  have hkind : Source.isWordChar (if agents.length ≤ 1 then 'B' else 'C') = false := by split <;> decide
  have hagents : (agents.map String.toList).map (Text.replaceAll x.toList o.toList) =
      (agents.map (overwritten x o)).map String.toList := by
    simp [overwritten]
  refine String.toList_inj.1 ?_
  rw [toList_operatorName, overwritten, String.toList_ofList, toList_operatorName, hmark hkind, hmark (by decide),
    Text.replaceAll_append_cons _ hx.2 hx.1.1, Text.replaceAll_intercalate _ hx.2 hx.1.1, hagents, List.length_map]
  rfl

theorem agentsBeforeLast_operatorName {agents : List String} (h : ∀ a ∈ agents, IsAgentWord a)
    (htwo : 2 ≤ agents.length) : agentsBeforeLast (operatorName agents) = agents.dropLast := by
  have hne : agents ≠ [] := by
    rintro rfl
    simp at htwo
  have hword := Source.isOperatorWord_operatorName fun a ha => (h a ha).1
  rw [if_neg (by omega)] at hword
  have hinside : [','].intercalate (agents.map String.toList) ≠ [] := by
    intro hnil
    have hsplit := splitOn_agents h hne
    rw [hnil, Text.splitOn] at hsplit
    have hlength := congrArg List.length hsplit
    rw [List.length_singleton, List.length_map] at hlength
    omega
  have hnonempty : ∀ l ∈ (agents.map String.toList).dropLast, (!l.isEmpty) = true := by
    intro l hl
    obtain ⟨a, ha, rfl⟩ := List.mem_map.1 (List.dropLast_subset _ hl)
    simpa using (h a ha).1.1
  rw [agentsBeforeLast, hword.insideOperator_eq rfl, if_neg hinside, String.toList_ofList, List.nil_append,
    List.append_nil, splitOn_agents h hne, List.filter_eq_self.2 hnonempty, ← List.map_dropLast, List.map_map]
  simp

/-! ## One exchange -/

/-- The variables among the agents before the last. -/
def lookedUp (vars agents : List String) : List String := agents.dropLast.filter (· ∈ vars)

/-- What is changed for each of some names, but is found for the first of them only. -/
def changedOnce {α : Type} (kept : α) (change : String → α) : List String → Except Fault α
  | [] => .ok kept
  | [x] => .ok (change x)
  | _ => .error .exchangedBefore

theorem changedOnce_map {α β : Type} (f : α → β) (kept : α) (change : String → α) (xs : List String) :
    (changedOnce kept change xs).map f = changedOnce (f kept) (f ∘ change) xs := by
  rcases xs with _ | ⟨x, _ | ⟨y, xs⟩⟩ <;> rfl

theorem changedOnce_eq_ok_iff {α : Type} {kept a : α} {change : String → α} {xs : List String} :
    changedOnce kept change xs = .ok a ↔ (xs = [] ∧ a = kept) ∨ ∃ x, xs = [x] ∧ a = change x := by
  rcases xs with _ | ⟨x, _ | ⟨y, xs⟩⟩ <;> simp [changedOnce, eq_comm]

theorem changedOnce_congr {α : Type} {kept : α} {f g : String → α} {xs : List String} (h : ∀ x ∈ xs, f x = g x) :
    changedOnce kept f xs = changedOnce kept g xs := by
  rcases xs with _ | ⟨x, _ | ⟨y, xs⟩⟩
  · rfl
  · rw [changedOnce, changedOnce, h x List.mem_cons_self]
  · rfl

namespace Assignment

theorem foldlM_exchange {t : Tree} {new : String → Tree} {before after : List Tree} {xs : List String}
    (hbefore : xs ≠ [] → t ∉ before) (hafter : 2 ≤ xs.length → t ∉ after) (hnew : ∀ x ∈ xs, new x ≠ t) :
    xs.foldlM (fun items x => exchange t (new x) items) (before ++ t :: after) =
      (changedOnce t new xs).map fun u => before ++ u :: after := by
  cases xs with
  | nil => rfl
  | cons x xs =>
    have hfirst := hbefore (List.cons_ne_nil _ _)
    rw [List.foldlM_cons, exchange_place hfirst]
    cases xs with
    | nil => rfl
    | cons y ys =>
      -- what was put in its place is something else
      have hgone : (before ++ new x :: after).contains t = false := by
        rw [← Bool.not_eq_true, List.contains_iff_mem, List.mem_append, List.mem_cons]
        rintro (h | h | h)
        · exact hfirst h
        · exact hnew x List.mem_cons_self h.symm
        · exact hafter (by simp) h
      show (List.foldlM (fun items x => exchange t (new x) items) (before ++ new x :: after) (y :: ys)) = _
      rw [List.foldlM_cons, exchange, hgone]
      rfl

section
variable {vars objects agents : List String}

theorem matching_ofNames_agents (hvars : vars.Nodup) (agents : List String) :
    (ofNames vars objects).matching agents = agents.filter (· ∈ vars) := by
  induction agents with
  | nil => rfl
  | cons a agents ih =>
    have hcons : (ofNames vars objects).matching (a :: agents) =
        (ofNames vars objects).matching [a] ++ (ofNames vars objects).matching agents := by
      simp [matching]
    rw [hcons, ih, matching_ofNames hvars, List.filter_cons]
    by_cases ha : a ∈ vars <;> simp [ha]

theorem firstObject_headD (hne : objects ≠ []) : (ofNames vars objects).firstObject = .ok (objects.headD "") := by
  obtain ⟨o, os, rfl⟩ := List.exists_cons_of_ne_nil hne
  rfl

theorem forEachAgent_operatorName (hvars : vars.Nodup) (hagents : ∀ a ∈ agents, IsAgentWord a)
    (htwo : 2 ≤ agents.length) (f : String → List Tree → Except Fault (List Tree)) (items : List Tree) :
    (ofNames vars objects).forEachAgent (operatorName agents) f items =
      (lookedUp vars agents).foldlM (fun items x => f x items) items := by
  rw [forEachAgent_eq, agentsBeforeLast_operatorName hagents htwo, matching_ofNames_agents hvars, lookedUp]

/-- **An operator of several agents is exchanged for each variable that is looked up**, as far as it is found. -/
theorem forEachAgent_group (hvars : vars.Nodup) (hlength : objects.length = vars.length)
    (hagents : ∀ a ∈ agents, IsAgentWord a) (htwo : 2 ≤ agents.length)
    {f : String → List Tree → Except Fault (List Tree)} {new : String → Tree} {before after : List Tree}
    (hf : objects ≠ [] → ∀ x items, f x items = exchange (.word (operatorName agents)) (new x) items)
    (hbefore : lookedUp vars agents ≠ [] → .word (operatorName agents) ∉ before)
    (hafter : 2 ≤ (lookedUp vars agents).length → .word (operatorName agents) ∉ after)
    (hnew : ∀ x ∈ lookedUp vars agents, new x ≠ .word (operatorName agents)) :
    (ofNames vars objects).forEachAgent (operatorName agents) f (before ++ .word (operatorName agents) :: after) =
      (changedOnce (.word (operatorName agents)) new (lookedUp vars agents)).map fun u => before ++ u :: after := by
  rw [forEachAgent_operatorName hvars hagents htwo]
  by_cases hnone : lookedUp vars agents = []
  · rw [hnone]
    rfl
  · have hobjects : objects ≠ [] := by
      rintro rfl
      obtain rfl : vars = [] := List.length_eq_zero_iff.1 hlength.symm
      exact hnone (by simp [lookedUp])
    have hsame : (fun items x => f x items) = fun items x => exchange (.word (operatorName agents)) (new x) items :=
      funext fun items => funext fun x => hf hobjects x items
    rw [hsame]
    exact foldlM_exchange hbefore hafter hnew

theorem fillCommonBelief_eq {σ : Assignment} {o : String} (ho : σ.firstObject = .ok o) (w agent : String)
    (items : List Tree) :
    σ.fillCommonBelief w agent items = exchange (.word w) (.word (overwritten agent o w)) items := by
  rw [fillCommonBelief, ho]
  by_cases hin : items.contains (.word w) = true
  · rw [if_pos hin]
    rfl
  · rw [if_neg hin, exchange, if_neg hin]

theorem collapseCommonBelief_eq {σ : Assignment} {o : String} (ho : σ.firstObject = .ok o) (w : String)
    (items : List Tree) : σ.collapseCommonBelief w items = exchange (.word w) (.word ("C([" ++ o ++ "],")) items := by
  rw [collapseCommonBelief, ho]
  rfl

end
end Assignment

/-! ## Operators that are filled in -/

/-- Objects for distinct variables, none of which is a variable. -/
structure ObjectsFor (vars objects : List String) : Prop where
  nodup : vars.Nodup
  length : objects.length = vars.length
  apart : ∀ o ∈ objects, o ∉ vars
  plain : ∀ v ∈ vars, IsPlainWord v
  agent : ∀ o ∈ objects, IsAgentWord o

/-- The agents of an operator with the first object written over the variable that is looked up. -/
def groupFilled (vars objects agents : List String) : Except Fault (List String) :=
  changedOnce agents (fun x => agents.map (overwritten x (objects.headD ""))) (lookedUp vars agents)

/-- The operator of some agents, or of the first object only if a variable is looked up. -/
def groupCollapsed (vars objects agents : List String) : Except Fault String :=
  changedOnce (operatorName agents) (fun _ => "C([" ++ objects.headD "" ++ "],") (lookedUp vars agents)

section
variable {vars objects agents : List String} {before after : List Tree}

theorem ObjectsFor.headD_mem (h : ObjectsFor vars objects) {x : String} (hx : x ∈ lookedUp vars agents) :
    objects.headD "" ∈ objects := by
  cases objects with
  | nil =>
    obtain rfl : vars = [] := List.length_eq_zero_iff.1 h.length.symm
    simp [lookedUp] at hx
  | cons o objects => exact List.mem_cons_self

theorem mem_of_mem_lookedUp {x : String} (hx : x ∈ lookedUp vars agents) : x ∈ agents ∧ x ∈ vars := by
  obtain ⟨hmem, hvar⟩ := List.mem_filter.1 hx
  exact ⟨List.dropLast_subset _ hmem, of_decide_eq_true hvar⟩

/-- An operator changes when the first object is written over a variable among its agents. -/
theorem ObjectsFor.overwritten_ne (h : ObjectsFor vars objects) (hagents : ∀ a ∈ agents, IsAgentWord a) {x : String}
    (hx : x ∈ lookedUp vars agents) : overwritten x (objects.headD "") (operatorName agents) ≠ operatorName agents := by
  obtain ⟨hagent, hvar⟩ := mem_of_mem_lookedUp hx
  have hword := hagents x hagent
  have hfirst := h.headD_mem hx
  have hne : agents ≠ [] := List.ne_nil_of_mem hagent
  have hmap : ∀ b ∈ agents.map (overwritten x (objects.headD "")), IsAgentWord b := by
    intro b hb
    obtain ⟨a, ha, rfl⟩ := List.mem_map.1 hb
    exact (h.agent _ hfirst).overwritten (hagents a ha)
  rw [overwritten_operatorName hword, Ne, operatorName_inj hmap hagents (mt List.map_eq_nil_iff.1 hne) hne]
  intro hsame
  have hself : overwritten x (objects.headD "") x = x :=
    List.map_inj_left.1 (hsame.trans (List.map_id agents).symm) x hagent
  rw [overwritten_self hword.1.1] at hself
  exact h.apart _ hfirst (hself ▸ hvar)

theorem collapsed_ne (hagents : ∀ a ∈ agents, IsAgentWord a) (o : String) :
    "C([" ++ o ++ "]," ≠ operatorName agents := by
  intro heq
  have hmem : '[' ∈ (operatorName agents).toList := by
    rw [← heq]
    simp
  have hnone : '[' ∉ [','].intercalate (agents.map String.toList) :=
    Source.not_mem_intercalate_toList (by decide) fun a ha => (hagents a ha).1.not_mem (by decide)
  rw [toList_operatorName] at hmem
  split at hmem <;> simp [hnone] at hmem

variable (hagents : ∀ a ∈ agents, IsAgentWord a) (htwo : 2 ≤ agents.length)
include hagents htwo

theorem hasCommonBelief_operatorName :
    (Tree.word (operatorName agents)).hasBelief = false ∧ (Tree.word (operatorName agents)).hasCommonBelief = true := by
  have hword := Source.isOperatorWord_operatorName fun a ha => (hagents a ha).1
  rw [if_neg (by omega)] at hword
  refine ⟨Bool.eq_false_iff.2 fun hb => ?_, hword.hasCommonBelief_iff.2 rfl⟩
  cases hword.hasBelief_iff.1 hb

/-- **An operator of several agents receives the first object once**, and then what stands behind it is filled in. -/
theorem fillOperator_common (h : ObjectsFor vars objects) (inner : Tree → Work Fluents Tree)
    (hbefore : lookedUp vars agents ≠ [] → .word (operatorName agents) ∉ before)
    (hafter : 2 ≤ (lookedUp vars agents).length → .word (operatorName agents) ∉ after) (l : Fluents) :
    ((ofNames vars objects).fillOperator inner
        (before ++ .word (operatorName agents) :: after) before.length).perform l =
      (Work.ofExcept (groupFilled vars objects agents) >>= fun as =>
        Assignment.fillBehind inner before.length (before ++ .word (operatorName as) :: after)).perform l := by
  obtain ⟨hbelief, hcommon⟩ := hasCommonBelief_operatorName hagents htwo
  have hplace : (before ++ .word (operatorName agents) :: after)[before.length]? =
      some (.word (operatorName agents)) := by simp
  have hfill : (ofNames vars objects).forEachAgent (operatorName agents)
      ((ofNames vars objects).fillCommonBelief (operatorName agents)) (before ++ .word (operatorName agents) :: after) =
      (groupFilled vars objects agents).map fun as => before ++ .word (operatorName as) :: after := by
    refine (Assignment.forEachAgent_group h.nodup h.length hagents htwo
      (fun hne x items => Assignment.fillCommonBelief_eq (Assignment.firstObject_headD hne) _ x items) hbefore hafter
      fun x hx heq => h.overwritten_ne hagents hx (Tree.word.inj heq)).trans ?_
    rw [groupFilled, changedOnce_map, changedOnce_map]
    refine changedOnce_congr fun x hx => ?_
    rw [Function.comp_apply, Function.comp_apply, overwritten_operatorName (hagents x (mem_of_mem_lookedUp hx).1)]
  rw [Assignment.fillOperator, hplace]
  simp only [hbelief, hcommon, Bool.false_eq_true, if_false, if_true]
  rw [hfill]
  cases groupFilled vars objects agents <;> rfl

/-- **An operator of several agents that names a variable is collapsed once.** -/
theorem collapseOperator_group (h : ObjectsFor vars objects)
    (hbefore : lookedUp vars agents ≠ [] → .word (operatorName agents) ∉ before)
    (hafter : 2 ≤ (lookedUp vars agents).length → .word (operatorName agents) ∉ after) :
    (ofNames vars objects).collapseOperator (before ++ .word (operatorName agents) :: after) before.length =
      (groupCollapsed vars objects agents).map fun u => before ++ .word u :: after := by
  obtain ⟨-, hcommon⟩ := hasCommonBelief_operatorName hagents htwo
  have hplace : (before ++ .word (operatorName agents) :: after)[before.length]? =
      some (.word (operatorName agents)) := by
    simp
  rw [Assignment.collapseOperator, hplace]
  simp only [hcommon, if_true]
  refine (Assignment.forEachAgent_group h.nodup h.length hagents htwo
    (fun hne _ items => Assignment.collapseCommonBelief_eq (Assignment.firstObject_headD hne) _ items) hbefore hafter
    fun _ _ heq => collapsed_ne hagents _ (Tree.word.inj heq)).trans ?_
  rw [groupCollapsed, changedOnce_map, changedOnce_map]
  rfl

end

end Epistemic
