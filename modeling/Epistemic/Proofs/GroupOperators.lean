import Epistemic.Proofs.GroupExchange
/-!
# Operators of several agents

An operator of several agents among others, of which each is exchanged once at most, and behind them the words of an
atom or a formula in a list of its own.  Filling in goes well only if at most one variable is looked up in it, and does
what the assignment says exactly if writing the first object over that variable does (`substitute_group_iff`).
-/
namespace Epistemic

open Source (IsPlainWord operatorName)
open Assignment (ofNames objectFor objectTree firstFor fillNext)

/-! ## Operators around it -/

/-- The operator of some agents. -/
def operatorTree (agents : List String) : Tree := .word (operatorName agents)

/-- An operator of one agent, or of several with no variable before the last. -/
structure ClosedOperator (vars op : List String) : Prop where
  nonempty : op ≠ []
  agents : ∀ a ∈ op, IsAgentWord a
  closed : lookedUp vars op = []

/-- The agents an operator is filled in with: the first object for one agent that is a variable, and for several the
first object over each variable that is looked up. -/
def filledAgents (vars objects op : List String) : List String :=
  if op.length ≤ 1 then op.map (firstFor vars objects)
  else (lookedUp vars op).foldl (fun as x => as.map (overwritten x (objects.headD ""))) op

/-- An operator that is exchanged once at most, and has no variable to be looked up after that. -/
structure SettledOperator (vars objects op : List String) : Prop where
  nonempty : op ≠ []
  agents : ∀ a ∈ op, IsAgentWord a
  once : (lookedUp vars op).length ≤ 1
  settled : lookedUp vars (filledAgents vars objects op) = []

/-- An operator that is exchanged: of a variable, or of several agents with a variable before the last. -/
def IsOpen (vars op : List String) : Prop := (∃ x ∈ vars, op = [x]) ∨ lookedUp vars op ≠ []

/-- A tree in which no variable is looked up: a closed operator, or none. -/
def IsQuiet (vars : List String) (t : Tree) : Prop :=
  (∃ op, ClosedOperator vars op ∧ t = operatorTree op) ∨ Literals.isOperator t = false

theorem operatorTree_singleton (x : String) : operatorTree [x] = beliefWord x := by
  simp [operatorTree, operatorName, beliefWord]

theorem Source.IsPlainWord.isTokenWord {w : String} (h : IsPlainWord w) : Source.IsTokenWord w where
  nonempty := by
    rintro rfl
    exact h.1 rfl
  parenthesis := h.not_mem_marks.1
  newline := h.not_mem_marks.2.1

theorem isOperator_operatorName {agents : List String} (hagents : ∀ a ∈ agents, IsAgentWord a) :
    Literals.isOperator (.word (operatorName agents)) = true :=
  (Source.isOperatorWord_operatorName fun a ha => (hagents a ha).1).isOperator

theorem operatorTree_inj {as bs : List String} (has : ∀ a ∈ as, IsAgentWord a) (hbs : ∀ b ∈ bs, IsAgentWord b)
    (hne : as ≠ []) (hne' : bs ≠ []) : operatorTree as = operatorTree bs ↔ as = bs := by
  rw [operatorTree, operatorTree, Tree.word.injEq, operatorName_inj has hbs hne hne']

section
variable {vars objects agents : List String} (h : ObjectsFor vars objects)
include h

/-- The agents that an operator is filled in with are spelled as agents. -/
theorem groupFilled_agents {agents as : List String} (hagents : ∀ a ∈ agents, IsAgentWord a)
    (hfilled : groupFilled vars objects agents = .ok as) : (∀ a ∈ as, IsAgentWord a) ∧ as.length = agents.length := by
  rcases changedOnce_eq_ok_iff.1 hfilled with ⟨-, rfl⟩ | ⟨x, hfound, rfl⟩
  · exact ⟨hagents, rfl⟩
  · have hfirst := h.headD_mem (hfound ▸ List.mem_cons_self : x ∈ lookedUp vars agents)
    refine ⟨fun a ha => ?_, List.length_map _⟩
    obtain ⟨b, hb, rfl⟩ := List.mem_map.1 ha
    exact (h.agent _ hfirst).overwritten (hagents b hb)

namespace SettledOperator

variable {op : List String} (hop : SettledOperator vars objects op)
include hop

omit h in
theorem one_or_more : (∃ x, op = [x] ∧ filledAgents vars objects op = [firstFor vars objects x]) ∨
    2 ≤ op.length ∧ groupFilled vars objects op = .ok (filledAgents vars objects op) := by
  rcases op with _ | ⟨x, _ | ⟨y, op⟩⟩
  · exact absurd rfl hop.nonempty
  · exact .inl ⟨x, rfl, rfl⟩
  · refine .inr ⟨by simp, ?_⟩
    have hmore : ¬(x :: y :: op).length ≤ 1 := by simp
    have honce := hop.once
    rw [groupFilled, filledAgents, if_neg hmore]
    rcases hfound : lookedUp vars (x :: y :: op) with _ | ⟨z, _ | ⟨z', zs⟩⟩
    · rfl
    · rfl
    · simp [hfound] at honce

theorem filled : ClosedOperator vars (filledAgents vars objects op) ∧ ¬IsOpen vars (filledAgents vars objects op) := by
  rcases hop.one_or_more with ⟨x, rfl, hfilled⟩ | ⟨htwo, hfilled⟩
  · have hx : IsAgentWord (firstFor vars objects x) := by
      rcases Assignment.firstFor_eq_or_mem x vars objects with heq | hmem
      · rw [heq]
        exact hop.agents x List.mem_cons_self
      · exact h.agent _ hmem
    rw [hfilled]
    refine ⟨⟨List.cons_ne_nil _ _, List.forall_mem_singleton.2 hx, rfl⟩, ?_⟩
    rintro (⟨y, hy, heq⟩ | hne)
    · cases heq
      exact Assignment.firstFor_not_mem h.length h.apart x hy
    · exact hne rfl
  · obtain ⟨hagents, hlength⟩ := groupFilled_agents h hop.agents hfilled
    refine ⟨⟨?_, hagents, hop.settled⟩, ?_⟩
    · rw [← List.length_pos_iff]
      omega
    · rintro (⟨y, -, heq⟩ | hne)
      · rw [heq, List.length_singleton] at hlength
        omega
      · exact hne hop.settled

/-- **A settled operator is filled in**, and then what stands behind it. -/
theorem fillOperator_behind {before : List Tree} (hbefore : IsOpen vars op → operatorTree op ∉ before)
    (inner : Tree → Work Fluents Tree) (after : List Tree) (l : Fluents) :
    ((ofNames vars objects).fillOperator inner (before ++ operatorTree op :: after) before.length).perform l =
      (Assignment.fillBehind inner before.length
        (before ++ operatorTree (filledAgents vars objects op) :: after)).perform l := by
  rcases hop.one_or_more with ⟨x, rfl, hfilled⟩ | ⟨htwo, hfilled⟩
  · rw [operatorTree_singleton] at hbefore
    rw [hfilled, operatorTree_singleton, operatorTree_singleton]
    exact Assignment.fillOperator_belief h.nodup h.length (hop.agents x List.mem_cons_self).1.isTokenWord inner
      (fun hx => hbefore (.inl ⟨x, hx, rfl⟩)) after l
  · have honce := hop.once
    refine (fillOperator_common hop.agents htwo h inner (fun hne => hbefore (.inr hne)) (fun _ => by omega) l).trans ?_
    rw [hfilled]
    rfl

theorem fillOperator_next {before : List Tree} (hbefore : IsOpen vars op → operatorTree op ∉ before)
    (inner : Tree → Work Fluents Tree) (behind : List Tree) :
    (ofNames vars objects).fillOperator inner (before ++ operatorTree op :: behind) before.length =
      (fillNext inner behind >>= fun behind =>
        pure (before ++ operatorTree (filledAgents vars objects op) :: behind)) := by
  refine Work.ext fun l => ?_
  rw [hop.fillOperator_behind h hbefore, Assignment.fillBehind_append]

theorem fillOperator {before : List Tree} (hbefore : IsOpen vars op → operatorTree op ∉ before)
    (inner : Tree → Work Fluents Tree) (w : String) (after : List Tree) (l : Fluents) :
    ((ofNames vars objects).fillOperator inner
        (before ++ operatorTree op :: .word w :: after) before.length).perform l =
      (.ok (before ++ operatorTree (filledAgents vars objects op) :: .word w :: after), l) := by
  rw [hop.fillOperator_behind h hbefore, Assignment.perform_fillBehind_word]

end SettledOperator

omit h in
/-- An operator in which a variable is looked up is not among words in which none is. -/
theorem not_mem_of_isQuiet {ts : List Tree} (hquiet : ∀ t ∈ ts, IsQuiet vars t) (hagents : ∀ a ∈ agents, IsAgentWord a)
    (hne : lookedUp vars agents ≠ []) : operatorTree agents ∉ ts := by
  intro hmem
  rcases hquiet _ hmem with ⟨op, hop, heq⟩ | hplain
  · have hagents_ne : agents ≠ [] := by
      rintro rfl
      exact hne rfl
    have hsame := (operatorName_inj hagents hop.agents hagents_ne hop.nonempty).1 (Tree.word.inj heq)
    exact hne (hsame ▸ hop.closed)
  · rw [operatorTree, isOperator_operatorName hagents] at hplain
    cases hplain

theorem collapseOperator_of_isQuiet {items : List Tree} {k : Nat} (hk : ∀ t, items[k]? = some t → IsQuiet vars t) :
    (ofNames vars objects).collapseOperator items k = .ok items := by
  cases ht : items[k]? with
  | none => rw [Assignment.collapseOperator, ht]
  | some t =>
    by_cases hcommon : t.hasCommonBelief = true
    · rcases hk t ht with ⟨op, hop, rfl⟩ | hplain
      · have htwo : 2 ≤ op.length := by
          rcases op with _ | ⟨x, _ | ⟨y, op⟩⟩
          · exact absurd rfl hop.nonempty
          · rw [operatorTree_singleton,
              hasCommonBelief_beliefWord (hop.agents x List.mem_cons_self).1.isTokenWord] at hcommon
            cases hcommon
          · simp
        rw [Assignment.collapseOperator, ht]
        simp only [operatorTree] at hcommon ⊢
        simp only [hcommon, if_true]
        rw [Assignment.forEachAgent_operatorName h.nodup hop.agents htwo, hop.closed]
        rfl
      · rw [(Bool.or_eq_false_iff.1 hplain).2] at hcommon
        cases hcommon
    · refine Assignment.collapseOperator_plain fun u hu => ?_
      rw [ht] at hu
      cases hu
      exact Bool.eq_false_iff.2 hcommon

end

/-! ## Formulas with an operator of several agents -/

/-- A formula in one list: operators, an operator that is spelled `u`, further operators, and what stands behind them.
-/
def groupBelief (outer : List (List String)) (u : String) (inner : List (List String)) (behind : List Tree) : Tree :=
  .list (outer.map operatorTree ++ .word u :: (inner.map operatorTree ++ behind))

theorem length_items_groupBelief (outer : List (List String)) (u : String) (inner : List (List String))
    (behind : List Tree) :
    (groupBelief outer u inner behind).items.length = outer.length + (1 + inner.length) + behind.length := by
  rw [groupBelief, Tree.items]
  simp
  omega

theorem getElem?_items_groupBelief (outer : List (List String)) (u : String) (inner : List (List String))
    (behind : List Tree) : (groupBelief outer u inner behind).items[outer.length]? = some (.word u) := by
  rw [groupBelief, Tree.items, List.getElem?_append_right (by simp)]
  simp

/-- What stands behind operators, filled in: a list as a formula of its own, and words with their objects. -/
def filledBehind (vars objects : List String) (recorded : Bool) (behind : List Tree) : Work Fluents (List Tree) :=
  fillNext (substitute (ofNames vars objects) recorded) behind >>= fun behind =>
    pure (behind.map (objectTree vars objects))

/-- An operator is not filled in with the one before it. -/
theorem fillNext_operator (within : Tree → Work Fluents Tree) (op : List String) (rest : List Tree) :
    fillNext within (operatorTree op :: rest) = pure (operatorTree op :: rest) := rfl

/-- What may stand behind operators: the words of an atom, or a list that is no operator when it has been filled in. -/
inductive StandsBehind (vars objects : List String) (recorded : Bool) (known : Fluents) : List Tree → Prop
  | words {args : List String} (hne : args ≠ []) (hwords : ∀ w ∈ args, IsPlainWord w) :
      StandsBehind vars objects recorded known (args.map .word)
  | list {ts : List Tree} (hlist : ∀ t known', (substitute (ofNames vars objects) recorded (.list ts)).perform known =
      (.ok t, known') → Literals.isOperator t = false) : StandsBehind vars objects recorded known [.list ts]

theorem Assignment.fillNext_words {args : List String} (hne : args ≠ []) (inner : Tree → Work Fluents Tree) :
    fillNext inner (args.map .word) = pure (args.map .word) := by
  obtain ⟨w, rest, rfl⟩ := List.exists_cons_of_ne_nil hne
  rfl

theorem depthItems_operators (ops : List (List String)) (behind : List Tree) :
    Tree.depthItems (ops.map operatorTree ++ behind) = Tree.depthItems behind := by
  induction ops with
  | nil => rfl
  | cons op ops ih => rw [List.map_cons, List.cons_append, Tree.depthItems, ih, operatorTree, Tree.depth, Nat.zero_max]

/-- A formula that was filled in is a list, and can be printed if it was recorded. -/
theorem substitute_eq_ok {σ : Assignment} {recorded : Bool} {t result : Tree} {known known' : Fluents}
    (h : (substitute σ recorded t).perform known = (.ok result, known')) :
    ∃ ts, result = .list ts ∧ (recorded = true → ∃ text, MAp.formula (.list ts) = .ok text) := by
  rw [substitute, substituteWithin] at h
  obtain ⟨_, _, -, h⟩ := Work.perform_bind_eq_ok.1 h
  obtain ⟨_, _, -, h⟩ := Work.perform_bind_eq_ok.1 h
  obtain ⟨items, _, -, h⟩ := Work.perform_bind_eq_ok.1 h
  by_cases hrecorded : recorded = true
  · rw [if_pos hrecorded] at h
    obtain ⟨_, _, hrecord, h⟩ := Work.perform_bind_eq_ok.1 h
    obtain ⟨text, htext, -⟩ := Work.perform_ofExcept_bind_eq_ok.1 hrecord
    cases h
    exact ⟨items, rfl, fun _ => ⟨text, htext⟩⟩
  · rw [if_neg hrecorded] at h
    cases h
    exact ⟨items, rfl, fun hyes => absurd hyes hrecorded⟩

namespace StandsBehind

variable {vars objects : List String} {recorded : Bool} {known : Fluents} {behind : List Tree}
  (h : StandsBehind vars objects recorded known behind)
include h

/-- What stands behind the operators of a formula is less deep, so that it is filled in as a formula of its own. -/
theorem fillNext_within (outer inner : List (List String)) (u : String) :
    fillNext (substituteWithin (ofNames vars objects) recorded (groupBelief outer u inner behind).depth) behind =
      fillNext (substitute (ofNames vars objects) recorded) behind := by
  cases h with
  | words hne _ => rw [Assignment.fillNext_words hne, Assignment.fillNext_words hne]
  | @list ts _ =>
    have hdepth : (groupBelief outer u inner [.list ts]).depth = (Tree.list ts).depth + 1 := by
      rw [groupBelief, Tree.depth, depthItems_operators, Tree.depthItems, depthItems_operators]
      simp [Tree.depthItems, Tree.depth]
    rw [hdepth, fillNext, fillNext, substitute]

/-- **What stands behind operators is no operator when it has been filled in**, and can be printed behind them. -/
theorem filled (hobjects : ∀ o ∈ objects, IsPlainWord o) {filled : List Tree} {known' : Fluents}
    (hrun : (fillNext (substitute (ofNames vars objects) recorded) behind).perform known = (.ok filled, known')) :
    filled.length = behind.length ∧ (∀ t ∈ filled, Literals.isOperator t = false) ∧
      (recorded = true → IsPrintedBehind (filled.map (objectTree vars objects))) := by
  cases h with
  | @words args hne hwords =>
    rw [Assignment.fillNext_words hne] at hrun
    cases hrun
    refine ⟨rfl, List.forall_mem_map.2 fun w hw => (hwords w hw).isOperator_eq_false, fun _ => .inl ?_⟩
    have hplain : ∀ w ∈ args.map (objectFor vars objects), IsPlainWord w :=
      Assignment.forall_mem_map_objectFor hobjects hwords
    rw [Assignment.map_objectTree_words]
    obtain ⟨w, rest, rfl⟩ := List.exists_cons_of_ne_nil hne
    exact ⟨_, _, rfl, fun opened => ⟨_, MAp.formulaFrom_words opened fun v hv => (hplain v hv).isOperator_eq_false⟩⟩
  | @list ts hlist =>
    obtain ⟨t, _, ht, hrun⟩ := Work.perform_bind_eq_ok.1 hrun
    cases hrun
    obtain ⟨items, rfl, hprinted⟩ := substitute_eq_ok ht
    exact ⟨rfl, List.forall_mem_singleton.2 (hlist _ _ ht), fun hrecorded => .inr ⟨items, rfl, hprinted hrecorded⟩⟩

theorem not_mem {agents : List String} : operatorTree agents ∉ behind := by
  intro hmem
  cases h with
  | words _ hwords =>
    obtain ⟨w, hw, heq⟩ := List.mem_map.1 hmem
    refine (hwords w hw).not_mem_marks.1 ?_
    rw [Tree.word.inj heq, toList_operatorName]
    simp
  | list _ => cases List.mem_singleton.1 hmem

end StandsBehind

section
variable {vars objects agents : List String} {behind : List Tree} {outer inner : List (List String)}
  (h : ObjectsFor vars objects) (hagents : ∀ a ∈ agents, IsAgentWord a) (htwo : 2 ≤ agents.length)
  (houter : ∀ op ∈ outer, SettledOperator vars objects op) (hinner : ∀ op ∈ inner, SettledOperator vars objects op)
  (hapart : ∀ op ∈ inner, lookedUp vars op ≠ [] → groupFilled vars objects agents ≠ .ok op)

include h in
/-- An operator that is exchanged is not among operators that were filled in. -/
theorem not_mem_filled {ops : List (List String)} (hops : ∀ op ∈ ops, SettledOperator vars objects op)
    {op : List String} (hop : SettledOperator vars objects op) (hopen : IsOpen vars op) :
    operatorTree op ∉ (ops.map (filledAgents vars objects)).map operatorTree := by
  intro hmem
  rw [List.map_map] at hmem
  obtain ⟨op', hop', heq⟩ := List.mem_map.1 hmem
  obtain ⟨hclosed, hnot⟩ := (hops op' hop').filled h
  have hsame := (operatorTree_inj hclosed.agents hop.agents hclosed.nonempty hop.nonempty).1 heq
  exact hnot (hsame ▸ hopen)

include h in
/-- **Operators are filled in one after the other**, and what stands behind the last of them after it. -/
theorem foldlM_fillOperator_settled {ops : List (List String)} (hops : ∀ op ∈ ops, SettledOperator vars objects op)
    (within : Tree → Work Fluents Tree) (behind before : List Tree)
    (hbefore : ∀ op ∈ ops, IsOpen vars op → operatorTree op ∉ before) :
    (List.range' before.length ops.length).foldlM ((ofNames vars objects).fillOperator within)
      (before ++ (ops.map operatorTree ++ behind)) =
      ((if ops.isEmpty then pure behind else fillNext within behind) >>= fun behind =>
        pure (before ++ ((ops.map (filledAgents vars objects)).map operatorTree ++ behind))) := by
  induction ops generalizing before with
  | nil => rfl
  | cons op ops ih =>
    obtain ⟨hop, hops⟩ := List.forall_mem_cons.1 hops
    obtain ⟨hfirst, hrest⟩ := List.forall_mem_cons.1 hbefore
    have hnext := ih hops (before ++ [operatorTree (filledAgents vars objects op)]) fun op' hop' hopen => by
      rw [List.mem_append, not_or]
      exact ⟨hrest op' hop' hopen, not_mem_filled h (List.forall_mem_singleton.2 hop) (hops op' hop') hopen⟩
    rw [List.length_append, List.length_singleton] at hnext
    rw [List.length_cons, List.range'_succ, List.foldlM_cons, List.map_cons, List.cons_append,
      hop.fillOperator_next h hfirst, bind_assoc]
    cases ops with
    | nil => simp
    | cons op' ops =>
      -- an operator stands behind this one, so that nothing is filled in with it
      rw [List.map_cons, List.cons_append, fillNext_operator]
      simpa using hnext

theorem isQuiet_operators {ops : List (List String)} (hops : ∀ op ∈ ops, ClosedOperator vars op) :
    ∀ t ∈ ops.map operatorTree, IsQuiet vars t := by
  intro t ht
  obtain ⟨op, hop, rfl⟩ := List.mem_map.1 ht
  exact .inl ⟨op, hops op hop, rfl⟩

include h in
theorem closed_of_mem_filled {ops : List (List String)} (hops : ∀ op ∈ ops, SettledOperator vars objects op) :
    ∀ op ∈ ops.map (filledAgents vars objects), ClosedOperator vars op := by
  intro op hop
  obtain ⟨op, hmem, rfl⟩ := List.mem_map.1 hop
  exact ((hops op hmem).filled h).1

/-- An operator in which two variables are looked up is not among others. -/
theorem not_mem_settled (hagents : ∀ a ∈ agents, IsAgentWord a) (hinner : ∀ op ∈ inner, SettledOperator vars objects op)
    (hmore : 2 ≤ (lookedUp vars agents).length) : operatorTree agents ∉ inner.map operatorTree := by
  have hne : agents ≠ [] := by
    rintro rfl
    simp [lookedUp] at hmore
  intro hmem
  obtain ⟨op, hop, heq⟩ := List.mem_map.1 hmem
  have honce := (hinner op hop).once
  obtain rfl := (operatorTree_inj (hinner op hop).agents hagents (hinner op hop).nonempty hne).1 heq
  omega

/-- The places of a list around one of them. -/
theorem range_around (a b : Nat) : List.range (a + (1 + b)) = List.range' 0 a ++ a :: List.range' (a + 1) b := by
  rw [List.range_eq_range', ← List.range'_append_1, Nat.add_comm 1 b, List.range'_succ, Nat.zero_add]

include h in
/-- **Only the operator that names a variable is collapsed.** -/
theorem foldlM_collapseOperator_group {agents : List String} (hagents : ∀ a ∈ agents, IsAgentWord a)
    (htwo : 2 ≤ agents.length) {before after : List Tree} (hquiet : ∀ t ∈ before ++ after, IsQuiet vars t) :
    (List.range (before ++ operatorTree agents :: after).length).foldlM (ofNames vars objects).collapseOperator
      (before ++ operatorTree agents :: after) =
      (groupCollapsed vars objects agents).map fun u => before ++ .word u :: after := by
  obtain ⟨hbefore, hafter⟩ := List.forall_mem_append.1 hquiet
  have hfirst : (List.range' 0 before.length).foldlM (ofNames vars objects).collapseOperator
      (before ++ operatorTree agents :: after) = .ok (before ++ operatorTree agents :: after) := by
    refine Assignment.foldlM_collapseOperator_of_forall _ fun k hk => collapseOperator_of_isQuiet h fun t ht => ?_
    obtain ⟨-, hlt⟩ := List.mem_range'_1.1 hk
    rw [List.getElem?_append_left (by omega)] at ht
    exact hbefore t (List.mem_of_getElem? ht)
  have hlast : ∀ u, (List.range' (before.length + 1) after.length).foldlM (ofNames vars objects).collapseOperator
      (before ++ .word u :: after) = .ok (before ++ .word u :: after) := by
    refine fun u => Assignment.foldlM_collapseOperator_of_forall _ fun k hk =>
      collapseOperator_of_isQuiet h fun t ht => ?_
    obtain ⟨hle, -⟩ := List.mem_range'_1.1 hk
    rw [List.getElem?_append_right (by omega), List.getElem?_cons, if_neg (by omega)] at ht
    exact hafter t (List.mem_of_getElem? ht)
  have hplaces : List.range (before ++ operatorTree agents :: after).length =
      List.range' 0 before.length ++ before.length :: List.range' (before.length + 1) after.length := by
    rw [← range_around, List.length_append, List.length_cons, Nat.add_comm 1]
  have hgroup : (ofNames vars objects).collapseOperator (before ++ operatorTree agents :: after) before.length =
      (groupCollapsed vars objects agents).map fun u => before ++ .word u :: after :=
    collapseOperator_group hagents htwo h (not_mem_of_isQuiet hbefore hagents)
      fun hle => not_mem_of_isQuiet hafter hagents (List.length_pos_iff.1 (by omega))
  have hrest : (before.length :: List.range' (before.length + 1) after.length).foldlM
      (ofNames vars objects).collapseOperator (before ++ operatorTree agents :: after) =
      (groupCollapsed vars objects agents).map fun u => before ++ .word u :: after := by
    rw [List.foldlM_cons, hgroup]
    cases groupCollapsed vars objects agents with
    | error e => rfl
    | ok u => exact hlast u
  rw [hplaces, List.foldlM_append, hfirst]
  exact hrest

/-- An operator that was collapsed or kept is still an operator. -/
theorem isOperator_of_groupCollapsed {agents : List String} (h : ObjectsFor vars objects)
    (hagents : ∀ a ∈ agents, IsAgentWord a) {u : String} (hu : groupCollapsed vars objects agents = .ok u) :
    Literals.isOperator (.word u) = true := by
  rcases changedOnce_eq_ok_iff.1 hu with ⟨-, rfl⟩ | ⟨x, hfound, rfl⟩
  · exact isOperator_operatorName hagents
  · have hfirst := (h.agent _ (h.headD_mem (hfound ▸ List.mem_cons_self : x ∈ lookedUp vars agents))).1.not_mem_marks
    exact (isOperatorWord_collapsed hfirst.1 hfirst.2.1).isOperator

/-- What is no operator behind the operators is left for later. -/
theorem foldlM_fillOperator_behind (σ : Assignment) (within : Tree → Work Fluents Tree) (outer : List (List String))
    (u : String) (inner : List (List String)) {behind : List Tree}
    (hbehind : ∀ t ∈ behind, Literals.isOperator t = false) (l : Fluents) :
    ((List.range' (outer.length + (1 + inner.length)) behind.length).foldlM (σ.fillOperator within)
      (groupBelief outer u inner behind).items).perform l = (.ok (groupBelief outer u inner behind).items, l) := by
  have hkept := Assignment.foldlM_fillOperator_trees σ within hbehind (outer.map operatorTree ++ .word u ::
    inner.map operatorTree) l
  have hlength : (outer.map operatorTree ++ .word u :: inner.map operatorTree).length =
      outer.length + (1 + inner.length) := by
    simp [Nat.add_comm]
  rwa [hlength, List.append_assoc, List.cons_append] at hkept

include h in
/-- Operators are no variables, so only what stands behind them is filled in at last. -/
theorem fillItems_groupBelief {u : String} (hu : '(' ∈ u.toList) (outer inner : List (List String))
    (behind : List Tree) :
    Assignment.fillItems (vars.map .word) (objects.map .word) (groupBelief outer u inner behind).items =
      .ok (groupBelief outer u inner (behind.map (objectTree vars objects))).items := by
  have hkept : ∀ w : String, '(' ∈ w.toList → objectTree vars objects (.word w) = .word w := fun w hw =>
    congrArg Tree.word (Assignment.objectFor_of_not_mem fun hmem => (h.plain w hmem).not_mem_marks.1 hw)
  have hname : ∀ op, objectTree vars objects (operatorTree op) = operatorTree op := fun op =>
    hkept _ (by rw [toList_operatorName]; simp)
  rw [Assignment.fillItems_trees _ h.length h.apart, groupBelief, groupBelief, Tree.items, Tree.items]
  simp [hkept u hu, hname, Function.comp_def]

include h in
/-- A formula whose operators were filled in can be printed, if what stands behind them can. -/
theorem exists_formula_groupBelief (houter : ∀ op ∈ outer, SettledOperator vars objects op)
    (hinner : ∀ op ∈ inner, SettledOperator vars objects op) {u : String} (hu : Literals.isOperator (.word u) = true)
    (hbehind : IsPrintedBehind behind) :
    ∃ text, MAp.formula (.list (groupBelief (outer.map (filledAgents vars objects)) u
      (inner.map (filledAgents vars objects)) behind).items) = .ok text := by
  have hops : ∀ {ops : List (List String)}, (∀ op ∈ ops, SettledOperator vars objects op) →
      ∀ w ∈ (ops.map (filledAgents vars objects)).map operatorName, Literals.isOperator (.word w) = true := by
    intro ops hops w hw
    obtain ⟨op, hop, rfl⟩ := List.mem_map.1 hw
    exact isOperator_operatorName (closed_of_mem_filled h hops op hop).agents
  have hall : ∀ w ∈ (outer.map (filledAgents vars objects)).map operatorName ++
      u :: (inner.map (filledAgents vars objects)).map operatorName, Literals.isOperator (.word w) = true :=
    List.forall_mem_append.2 ⟨hops houter, List.forall_mem_cons.2 ⟨hu, hops hinner⟩⟩
  obtain ⟨text, htext⟩ := exists_formulaFrom_before hall (by simp) hbehind 0
  refine ⟨text, ?_⟩
  rw [MAp.formula, Tree.items, groupBelief, Tree.items, ← htext]
  simp [operatorTree, Function.comp_def]

include h hagents htwo houter hinner hapart

omit hapart in
/-- The operator of several agents is filled in behind operators that were filled in. -/
theorem fillOperator_groupBelief (within : Tree → Work Fluents Tree) (hbehind : operatorTree agents ∉ behind) :
    (ofNames vars objects).fillOperator within ((outer.map (filledAgents vars objects)).map operatorTree ++
      operatorTree agents :: (inner.map operatorTree ++ behind)) outer.length =
      (Work.ofExcept (groupFilled vars objects agents) >>= fun as =>
        fillNext within (inner.map operatorTree ++ behind) >>= fun behind =>
          pure ((outer.map (filledAgents vars objects)).map operatorTree ++ operatorTree as :: behind)) := by
  refine Work.ext fun l => ?_
  have hquiet := isQuiet_operators (closed_of_mem_filled h houter)
  have hafter : 2 ≤ (lookedUp vars agents).length → operatorTree agents ∉ inner.map operatorTree ++ behind := by
    intro hmore
    rw [List.mem_append, not_or]
    exact ⟨not_mem_settled hagents hinner hmore, hbehind⟩
  have hlength : ((outer.map (filledAgents vars objects)).map operatorTree).length = outer.length := by simp
  have hcommon := fillOperator_common hagents htwo h within (not_mem_of_isQuiet hquiet hagents) hafter l
  simp only [hlength, ← Assignment.fillBehind_append] at hcommon ⊢
  exact hcommon

/-- An operator that is still to be exchanged is not among those before it, which were filled in. -/
theorem not_mem_before_inner {as : List String} (hfilled : groupFilled vars objects agents = .ok as)
    {op : List String} (hop : op ∈ inner) (hopen : IsOpen vars op) :
    operatorTree op ∉ (outer.map (filledAgents vars objects)).map operatorTree ++ [operatorTree as] := by
  obtain ⟨has, hsize⟩ := groupFilled_agents h hagents hfilled
  rw [List.mem_append, List.mem_singleton, not_or]
  refine ⟨not_mem_filled h houter (hinner op hop) hopen, fun heq => ?_⟩
  have hne : as ≠ [] := by
    rw [← List.length_pos_iff]
    omega
  obtain rfl := (operatorTree_inj (hinner op hop).agents has (hinner op hop).nonempty hne).1 heq
  rcases hopen with ⟨x, -, rfl⟩ | hopen
  · rw [List.length_singleton] at hsize
    omega
  · exact hapart op hop hopen hfilled

/-- **The operators of a formula are filled in**, each at its place, and what stands behind them. -/
theorem foldlM_fillOperator_groupBelief (within : Tree → Work Fluents Tree) (hbehind : operatorTree agents ∉ behind) :
    (List.range' 0 (outer.length + (1 + inner.length))).foldlM ((ofNames vars objects).fillOperator within)
      (groupBelief outer (operatorName agents) inner behind).items =
      (Work.ofExcept (groupFilled vars objects agents) >>= fun as => fillNext within behind >>= fun behind =>
        pure (groupBelief (outer.map (filledAgents vars objects)) (operatorName as)
          (inner.map (filledAgents vars objects)) behind).items) := by
  have hfirst := foldlM_fillOperator_settled h houter within (operatorTree agents :: (inner.map operatorTree ++ behind))
    [] fun _ _ _ => List.not_mem_nil
  rw [fillNext_operator, ite_self, pure_bind, List.nil_append, List.nil_append] at hfirst
  rw [← List.range'_append_1, List.foldlM_append, groupBelief, Tree.items]
  refine (congrArg (· >>= _) hfirst).trans ?_
  rw [pure_bind, Nat.zero_add, Nat.add_comm 1, List.range'_succ, List.foldlM_cons,
    fillOperator_groupBelief h hagents htwo houter hinner within hbehind, bind_assoc]
  cases hfilled : groupFilled vars objects agents with
  | error e => rfl
  | ok as =>
    have hrest := foldlM_fillOperator_settled h hinner within behind _ fun op hop hopen =>
      not_mem_before_inner h hagents htwo houter hinner hapart hfilled hop hopen
    rw [List.length_append, List.length_map, List.length_map, List.length_singleton] at hrest
    refine (pure_bind as _).trans (Eq.trans ?_ (pure_bind as _).symm)
    rw [bind_assoc]
    simp only [pure_bind]
    cases inner with
    | nil => simp [operatorTree, groupBelief, Tree.items]
    | cons op inner =>
      rw [List.map_cons, List.cons_append, fillNext_operator, pure_bind]
      simpa [operatorTree, groupBelief, Tree.items] using hrest

omit hagents htwo hapart in
/-- **Only the operator of several agents is collapsed**, where the others were filled in. -/
theorem foldlM_collapseOperator_groupBelief {as : List String} (has : ∀ a ∈ as, IsAgentWord a) (htwo : 2 ≤ as.length)
    {rest : List Tree} (hplain : ∀ t ∈ rest, Literals.isOperator t = false) :
    (List.range (outer.length + (1 + inner.length) + rest.length)).foldlM (ofNames vars objects).collapseOperator
      (groupBelief (outer.map (filledAgents vars objects)) (operatorName as) (inner.map (filledAgents vars objects))
        rest).items =
      (groupCollapsed vars objects as).map fun u => (groupBelief (outer.map (filledAgents vars objects)) u
        (inner.map (filledAgents vars objects)) rest).items := by
  have hquiet : ∀ t ∈ (outer.map (filledAgents vars objects)).map operatorTree ++
      ((inner.map (filledAgents vars objects)).map operatorTree ++ rest), IsQuiet vars t :=
    List.forall_mem_append.2 ⟨isQuiet_operators (closed_of_mem_filled h houter),
      List.forall_mem_append.2 ⟨isQuiet_operators (closed_of_mem_filled h hinner), fun t ht => .inr (hplain t ht)⟩⟩
  have hcollapse := foldlM_collapseOperator_group h has htwo hquiet
  have hlength := length_items_groupBelief (outer.map (filledAgents vars objects)) (operatorName as)
    (inner.map (filledAgents vars objects)) rest
  rw [List.length_map, List.length_map] at hlength
  rw [← hlength]
  exact hcollapse

/-- **What a formula with an operator of several agents is filled in to.** -/
theorem perform_substitute_groupBelief {recorded : Bool} {known : Fluents}
    (hbehind : StandsBehind vars objects recorded known behind) : ∃ known',
    (substitute (ofNames vars objects) recorded (groupBelief outer (operatorName agents) inner behind)).perform known =
      (groupFilled vars objects agents >>= fun as =>
        ((filledBehind vars objects recorded behind).perform known).1 >>= fun behind =>
          (groupCollapsed vars objects as).map fun u => groupBelief (outer.map (filledAgents vars objects)) u
            (inner.map (filledAgents vars objects)) behind, known') := by
  have hplaces : List.range (outer.length + (1 + inner.length) + behind.length) =
      List.range' 0 (outer.length + (1 + inner.length)) ++
        List.range' (outer.length + (1 + inner.length)) behind.length := by
    rw [List.range_eq_range', ← List.range'_append_1, Nat.zero_add]
  rw [substitute, substituteWithin, length_items_groupBelief, hplaces, List.foldlM_append,
    foldlM_fillOperator_groupBelief h hagents htwo houter hinner hapart _ hbehind.not_mem, hbehind.fillNext_within,
    filledBehind]
  simp only [bind_assoc, pure_bind]
  cases hfilled : groupFilled vars objects agents with
  | error e => exact ⟨known, rfl⟩
  | ok as =>
    obtain ⟨has, hsize⟩ := groupFilled_agents h hagents hfilled
    rw [Work.perform_bind_ok (Work.perform_ofExcept _ known)]
    rcases hnext : (fillNext (substitute (ofNames vars objects) recorded) behind).perform known with ⟨e | rest, k⟩
    · rw [Work.perform_bind_error hnext, Work.perform_bind_error hnext]
      exact ⟨k, rfl⟩
    · rw [Work.perform_bind_ok hnext, Work.perform_bind_ok hnext]
      obtain ⟨hlength, hplain, hprinted⟩ := hbehind.filled (fun o ho => (h.agent o ho).1) hnext
      have hkept := fun within => foldlM_fillOperator_behind (ofNames vars objects) within
        (outer.map (filledAgents vars objects)) (operatorName as) (inner.map (filledAgents vars objects)) hplain k
      rw [List.length_map, List.length_map, hlength] at hkept
      refine Exists.imp (fun _ => (Work.perform_bind_ok (hkept _)).trans) ?_
      rw [← hplaces, ← hlength, foldlM_collapseOperator_groupBelief h houter hinner has (hsize ▸ htwo) hplain]
      show ∃ known', _ = ((groupCollapsed vars objects as).map _, known')
      cases hcollapsed : groupCollapsed vars objects as with
      | error e => exact ⟨k, Work.perform_bind_error (Work.perform_ofExcept _ k)⟩
      | ok u =>
        have hoperator := isOperator_of_groupCollapsed h has hcollapsed
        rw [Except.map, Work.perform_bind_ok (Work.perform_ofExcept _ k), ofNames,
          fillItems_groupBelief h (parenthesis_mem_of_isOperator hoperator),
          Work.perform_bind_ok (Work.perform_ofExcept _ k)]
        exact exists_perform_recorded
          (fun hrecorded => exists_formula_groupBelief h houter hinner hoperator (hprinted hrecorded)) k

end

section
variable {vars objects agents : List String} (h : ObjectsFor vars objects)
include h

theorem ObjectsFor.objectFor_not_mem (w : String) : objectFor vars objects w ∉ vars := by
  by_cases hw : w ∈ vars
  · obtain ⟨k, hv⟩ := List.mem_iff_getElem?.1 hw
    obtain ⟨hk, -⟩ := List.getElem?_eq_some_iff.1 hv
    have hin : k < objects.length := h.length ▸ hk
    rw [Assignment.objectFor_getElem h.nodup hv (List.getElem?_eq_getElem hin)]
    exact h.apart _ (List.getElem_mem hin)
  · rw [Assignment.objectFor_of_not_mem hw]
    exact hw

theorem ObjectsFor.lookedUp_objectFor (agents : List String) :
    lookedUp vars (agents.map (objectFor vars objects)) = [] := by
  rw [lookedUp, List.filter_eq_nil_iff]
  intro y hy
  obtain ⟨w, -, rfl⟩ := List.mem_map.1 (List.dropLast_subset _ hy)
  simpa using h.objectFor_not_mem w

/-- Agents that are left as they are have their own objects exactly if none of them is a variable. -/
theorem ObjectsFor.map_objectFor_eq_self : agents.map (objectFor vars objects) = agents ↔ ∀ y ∈ agents, y ∉ vars := by
  constructor
  · intro hsame y hy
    rw [← hsame] at hy
    obtain ⟨w, -, rfl⟩ := List.mem_map.1 hy
    exact h.objectFor_not_mem w
  · intro hnone
    exact (List.map_congr_left fun y hy => Assignment.objectFor_of_not_mem (hnone y hy)).trans (List.map_id agents)

variable (hagents : ∀ a ∈ agents, IsAgentWord a) (hne : agents ≠ [])
include hagents hne

/-- **An operator is collapsed to the one over the objects exactly if its agents are these objects.** -/
theorem groupCollapsed_objectFor {as : List String} (has : ∀ a ∈ as, IsAgentWord a) (hne' : as ≠ []) :
    groupCollapsed vars objects as = .ok (operatorName (agents.map (objectFor vars objects))) ↔
      as = agents.map (objectFor vars objects) := by
  have hobjects := @Assignment.forall_mem_map_objectFor IsAgentWord vars objects agents h.agent hagents
  constructor
  · intro heq
    rcases changedOnce_eq_ok_iff.1 heq with ⟨-, hsame⟩ | ⟨x, -, hsame⟩
    · exact (operatorName_inj has hobjects hne' (mt List.map_eq_nil_iff.1 hne)).1 hsame.symm
    · exact absurd hsame.symm (collapsed_ne hobjects _)
  · rintro rfl
    rw [groupCollapsed, h.lookedUp_objectFor]
    rfl

/-- **When an operator of several agents is filled in as the assignment says.** -/
theorem groupCollapsed_groupFilled :
    (groupFilled vars objects agents >>= groupCollapsed vars objects) =
      .ok (operatorName (agents.map (objectFor vars objects))) ↔
    (∀ y ∈ agents, y ∉ vars) ∨
      ∃ x, lookedUp vars agents = [x] ∧ ∀ y ∈ agents,
        overwritten x (objects.headD "") y = objectFor vars objects y := by
  have hkept : (lookedUp vars agents = [] ∧ agents.map (objectFor vars objects) = agents) ↔ ∀ y ∈ agents, y ∉ vars := by
    rw [h.map_objectFor_eq_self, and_iff_right_iff_imp]
    intro hnone
    refine List.eq_nil_iff_forall_not_mem.2 fun x hx => ?_
    exact hnone x (mem_of_mem_lookedUp hx).1 (mem_of_mem_lookedUp hx).2
  have hfilled : (groupFilled vars objects agents >>= groupCollapsed vars objects) =
      .ok (operatorName (agents.map (objectFor vars objects))) ↔
      groupFilled vars objects agents = .ok (agents.map (objectFor vars objects)) := by
    cases hgroup : groupFilled vars objects agents with
    | error e => exact iff_of_false nofun nofun
    | ok as =>
      obtain ⟨has, hlength⟩ := groupFilled_agents h hagents hgroup
      have hne' : as ≠ [] := by
        rintro rfl
        exact hne (List.length_eq_zero_iff.1 hlength.symm)
      exact (groupCollapsed_objectFor h hagents hne has hne').trans (Except.ok.injEq _ _).symm.to_iff
  rw [hfilled, groupFilled, changedOnce_eq_ok_iff, hkept]
  simp only [List.map_inj_left, eq_comm]

end

/-- **An operator of several agents receives the first object for the one variable before the last agent**, written over
its letters in every agent, and two such variables stop the filling in.  What stands behind the operators is filled in
with it, be it the words of an atom or a list.  So the operator is filled in with the object of every agent exactly if
no agent is a variable, or one is looked up and writing the first object over it gives each agent its own, and if what
stands behind the operators can be filled in. -/
theorem substitute_group_iff (vars objects agents : List String) (outer inner : List (List String)) (behind : List Tree)
    (h : ObjectsFor vars objects) (hagents : ∀ a ∈ agents, IsAgentWord a) (htwo : 2 ≤ agents.length)
    (houter : ∀ op ∈ outer, SettledOperator vars objects op) (hinner : ∀ op ∈ inner, SettledOperator vars objects op)
    (hapart : ∀ op ∈ inner, lookedUp vars op ≠ [] → groupFilled vars objects agents ≠ .ok op) (recorded : Bool)
    (known : Fluents) (hbehind : StandsBehind vars objects recorded known behind) :
    (∃ known', (substitute (ofNames vars objects) recorded
        (groupBelief outer (operatorName agents) inner behind)).perform known =
      (groupFilled vars objects agents >>= fun as =>
        ((filledBehind vars objects recorded behind).perform known).1 >>= fun behind =>
          (groupCollapsed vars objects as).map fun u => groupBelief (outer.map (filledAgents vars objects)) u
            (inner.map (filledAgents vars objects)) behind, known')) ∧
    ((∃ result known', (substitute (ofNames vars objects) recorded
        (groupBelief outer (operatorName agents) inner behind)).perform known = (.ok result, known') ∧
      result.items[outer.length]? = some (operatorTree (agents.map (objectFor vars objects)))) ↔
    ((∀ y ∈ agents, y ∉ vars) ∨
      ∃ x, lookedUp vars agents = [x] ∧ ∀ y ∈ agents, overwritten x (objects.headD "") y = objectFor vars objects y) ∧
      ∃ filled, ((filledBehind vars objects recorded behind).perform known).1 = .ok filled) ∧
    ∀ args : List String, args ≠ [] →
      ((filledBehind vars objects recorded (args.map .word)).perform known).1 =
        .ok ((args.map (objectFor vars objects)).map .word) := by
  have hresult := perform_substitute_groupBelief h hagents htwo houter hinner hapart hbehind
  refine ⟨hresult, ?_, fun args hne => ?_⟩
  · obtain ⟨known', hresult⟩ := hresult
    have hne : agents ≠ [] := by
      rintro rfl
      simp at htwo
    have hplace := getElem?_items_groupBelief (outer.map (filledAgents vars objects))
    simp only [List.length_map] at hplace
    rw [← groupCollapsed_groupFilled h hagents hne, hresult]
    constructor
    · rintro ⟨result, _, hrun, hitem⟩
      obtain ⟨as, has, hrun⟩ := except_bind_eq_ok.1 (Prod.mk.inj hrun).1
      obtain ⟨filled, hfilled, hrun⟩ := except_bind_eq_ok.1 hrun
      rw [has]
      refine ⟨?_, filled, hfilled⟩
      cases hu : groupCollapsed vars objects as with
      | error e =>
        rw [hu] at hrun
        cases hrun
      | ok u =>
        rw [hu] at hrun
        cases hrun
        rw [hplace] at hitem
        rw [← Tree.word.inj (Option.some.inj hitem)]
        exact hu
    · rintro ⟨hsame, filled, hfilled⟩
      obtain ⟨as, has, hu⟩ := except_bind_eq_ok.1 hsame
      refine ⟨_, known', Prod.ext (except_bind_eq_ok.2 ⟨as, has, except_bind_eq_ok.2 ⟨filled, hfilled, ?_⟩⟩) rfl,
        hplace _ (inner.map (filledAgents vars objects)) filled⟩
      rw [hu]
      rfl
  · rw [filledBehind, Assignment.fillNext_words hne, pure_bind, Assignment.map_objectTree_words]
    rfl

/-- What one agent believes that two of them believe of a third, and what two agents believe together: the second of
them is never filled in, unless its name begins with that of the first. -/
theorem substitute_group_iff_pair :
    ((∃ known, (substitute (ofNames ["?x", "?y"] ["a", "b"]) true
      (groupBelief [["?y"]] (operatorName ["?x", "?y"]) [["?x", "c"]] (["has", "?y"].map .word))).perform [] =
      (.ok (.list [.word "B(a,", .word "C(a,?y,", .word "C(a,c,", .word "has", .word "b"]), known)) ∧
    ¬∃ result known, (substitute (ofNames ["?x", "?y"] ["a", "b"]) true
      (groupBelief [["?y"]] (operatorName ["?x", "?y"]) [["?x", "c"]] (["has", "?y"].map .word))).perform [] =
        (.ok result, known) ∧ result.items[1]? = some (.word "C(a,b,")) ∧
    ∃ known, (substitute (ofNames ["?ag", "?ag2"] ["a", "b"]) true
      (.list [.word "C(?ag,?ag2,", .list [.word "and", .list [.word "opened"], .list [.word "tail"]]])).perform [] =
      (.ok (.list [.word "C(a,a2,", .list [.word "and", .list [.word "opened"], .list [.word "tail"]]]), known) := by
  refine ⟨?_, ?_⟩
  · obtain ⟨hresult, hiff, -⟩ := substitute_group_iff ["?x", "?y"] ["a", "b"] ["?x", "?y"] [["?y"]] [["?x", "c"]]
      (["has", "?y"].map .word) ⟨by decide, rfl, by decide, by decide, by decide⟩ (by decide) (by decide)
      (List.forall_mem_singleton.2 ⟨by decide, by decide, by decide, by decide⟩)
      (List.forall_mem_singleton.2 ⟨by decide, by decide, by decide, by decide⟩)
      (List.forall_mem_singleton.2 fun _ heq => absurd (Except.ok.inj heq) (by decide)) true []
      (.words (by decide) (by decide))
    refine ⟨hresult, fun hsame => ?_⟩
    rcases (hiff.1 hsame).1 with hnone | ⟨x, hx, hfilled⟩
    · exact hnone "?x" (by decide) (by decide)
    · cases hx
      exact absurd (hfilled "?y" (by decide)) (by decide)
  · exact (substitute_group_iff ["?ag", "?ag2"] ["a", "b"] ["?ag", "?ag2"] [] []
      [.list [.word "and", .list [.word "opened"], .list [.word "tail"]]]
      ⟨by decide, rfl, by decide, by decide, by decide⟩ (by decide) (by decide) (by simp) (by simp) (by simp) true []
      (.list fun t known' hrun => by cases hrun; decide)).1

end Epistemic
