import Epistemic.Proofs.OperatorText
/-!
# What filling in reaches

Filling in a formula reaches the words among its items, and behind an operator the items of the list that stands there.
A list that does not stand behind an operator is passed over (`Tree.FilledItems`, `filledItems_of_substituteWithin`).
Operators are reached too, but only the agents that `insideOperator` and `agentsBeforeLast` find in them are looked up.
-/
namespace Epistemic

open Assignment (insideOperator agentsBeforeLast exchange)

/-! ## Words -/

/-- Words that are operators of the same kind, or both of none. -/
def SameKind (w u : String) : Prop :=
  (Tree.word u).hasBelief = (Tree.word w).hasBelief ∧ (Tree.word u).hasCommonBelief = (Tree.word w).hasCommonBelief

theorem SameKind.trans {w u x : String} (h : SameKind w u) (h' : SameKind u x) : SameKind w x :=
  ⟨h'.1.trans h.1, h'.2.trans h.2⟩

theorem SameKind.isOperator_eq {w u : String} (h : SameKind w u) :
    Literals.isOperator (.word u) = Literals.isOperator (.word w) := by
  rw [Literals.isOperator, Literals.isOperator, h.1, h.2]

theorem IsOperatorWord.sameKind {w u : String} {b a c b' a' c' : List Char} {mark : Char}
    (hw : IsOperatorWord w b mark a c) (hu : IsOperatorWord u b' mark a' c') : SameKind w u :=
  ⟨Bool.eq_iff_iff.2 (hu.hasBelief_iff.trans hw.hasBelief_iff.symm),
    Bool.eq_iff_iff.2 (hu.hasCommonBelief_iff.trans hw.hasCommonBelief_iff.symm)⟩

namespace Assignment

/-- Variables and objects are plain words, and no object is a variable or holds a comma. -/
structure Plain (σ : Assignment) : Prop where
  vars : ∀ t ∈ σ.vars, ∃ v, t = .word v ∧ Source.IsPlainWord v
  objects : ∀ t ∈ σ.objects, ∃ o, t = .word o ∧ Source.IsPlainWord o ∧ ',' ∉ o.toList
  apart : ∀ t ∈ σ.objects, t ∉ σ.vars

variable (σ : Assignment)

/-- An operator of one agent that names no variable where one is looked up. -/
def BeliefClosed (w : String) : Prop :=
  (Tree.word w).hasBelief = true → .word (insideOperator "B(" w) ∉ σ.vars

/-- An operator of several agents that names no variable where one is looked up. -/
def CommonClosed (w : String) : Prop :=
  (Tree.word w).hasCommonBelief = true → ∀ agent ∈ agentsBeforeLast w, .word agent ∉ σ.vars

/-- A word, and what it is filled in to. -/
structure WordFilled (w u : String) : Prop where
  kind : SameKind w u
  spelled : IsSpelled u
  belief : σ.BeliefClosed u
  common : σ.CommonClosed u
  closed : Literals.isOperator (.word u) = false → .word u ∉ σ.vars

/-- The agents that are variables, once for each time the variable is declared. -/
def matching (agents : List String) : List String :=
  agents.flatMap fun agent => (σ.vars.filter (·.isWord agent)).map fun _ => agent

variable {σ}

theorem mem_matching {agents : List String} {agent : String} :
    agent ∈ σ.matching agents ↔ agent ∈ agents ∧ .word agent ∈ σ.vars := by
  simp only [matching, List.mem_flatMap, List.mem_map, List.mem_filter, Tree.isWord, beq_iff_eq]
  constructor
  · rintro ⟨a, ha, t, ⟨ht, rfl⟩, rfl⟩
    exact ⟨ha, ht⟩
  · rintro ⟨ha, hv⟩
    exact ⟨agent, ha, .word agent, ⟨hv, rfl⟩, rfl⟩

theorem forEachAgent_eq (w : String) (f : String → List Tree → Except Fault (List Tree)) (items : List Tree) :
    σ.forEachAgent w f items = (σ.matching (agentsBeforeLast w)).foldlM (fun items agent => f agent items) items := by
  rw [forEachAgent]
  generalize agentsBeforeLast w = agents
  induction agents generalizing items with
  | nil => rfl
  | cons agent agents ih =>
    rw [matching, List.flatMap_cons, List.foldlM_append, List.foldlM_map, List.foldlM_filter, List.foldlM_cons]
    exact congrArg _ (funext ih)

theorem fillBelief_eq (w : String) (items : List Tree) :
    σ.fillBelief w items = (σ.matching [insideOperator "B(" w]).foldlM
      (fun items _ => do exchange (.word w) (.word ("B(" ++ (← σ.firstObject) ++ ",")) items) items := by
  rw [matching, List.flatMap_singleton, List.foldlM_map, List.foldlM_filter]
  rfl

theorem mem_of_firstObject {o : String} (h : σ.firstObject = .ok o) : .word o ∈ σ.objects := by
  unfold firstObject at h
  split at h
  · cases h
  · cases h
  · rename_i hobjects
    cases h
    rw [hobjects]
    exact List.mem_cons_self

namespace Plain

theorem firstObject (hσ : σ.Plain) {o : String} (h : σ.firstObject = .ok o) :
    Source.IsPlainWord o ∧ ',' ∉ o.toList ∧ .word o ∉ σ.vars := by
  obtain ⟨n, hn, hplain, hcomma⟩ := hσ.objects _ (mem_of_firstObject h)
  cases hn
  exact ⟨hplain, hcomma, hσ.apart _ (mem_of_firstObject h)⟩

theorem isPlainWord (hσ : σ.Plain) {v : String} (h : .word v ∈ σ.vars) : Source.IsPlainWord v := by
  obtain ⟨n, hn, hplain⟩ := hσ.vars _ h
  cases hn
  exact hplain

end Plain
end Assignment

theorem Source.IsPlainWord.isOperator_eq_false {w : String} (h : Source.IsPlainWord w) :
    Literals.isOperator (.word w) = false :=
  Bool.eq_false_iff.2 fun hop => h.not_mem (by decide) (parenthesis_mem_of_isOperator hop)

theorem Source.IsPlainWord.not_mem_marks {w : String} (h : Source.IsPlainWord w) :
    '(' ∉ w.toList ∧ '\n' ∉ w.toList ∧ 'C' ∉ w.toList :=
  ⟨h.not_mem (by decide), h.not_mem (by decide), h.not_mem (by decide)⟩

/-! ## Places -/

namespace Tree

/-- Whether a tree is a word that is an operator. -/
def isOperatorWord : Tree → Bool
  | .word w => Literals.isOperator (.word w)
  | .list _ => false

mutual
/-- A tree, and what it is filled in to.  A list is reached if it stands behind an operator. -/
def Filled (σ : Assignment) (behind : Bool) : Tree → Tree → Prop
  | .word w, .word u => σ.WordFilled w u
  | .list ts, .list us => if behind then FilledItems σ false ts us else us = ts
  | _, _ => False
/-- Items, and what they are filled in to. -/
def FilledItems (σ : Assignment) (behind : Bool) : List Tree → List Tree → Prop
  | [], [] => True
  | t :: ts, u :: us => Filled σ behind t u ∧ FilledItems σ t.isOperatorWord ts us
  | _, _ => False
end

/-- Whether the item at a place stands behind an operator, where `first` says so of the first. -/
def behindAt (first : Bool) (xs : List Tree) : Nat → Bool
  | 0 => first
  | i + 1 => (xs[i]?).any isOperatorWord

theorem behindAt_cons (first : Bool) (x : Tree) (xs : List Tree) (i : Nat) :
    behindAt first (x :: xs) (i + 1) = behindAt x.isOperatorWord xs i := by
  cases i <;> rfl

theorem filledItems_of_forall {σ : Assignment} : ∀ {first : Bool} {xs ys : List Tree}, ys.length = xs.length →
    (∀ i x y, xs[i]? = some x → ys[i]? = some y → Filled σ (behindAt first xs i) x y) → FilledItems σ first xs ys
  | _, [], [], _, _ => trivial
  | first, x :: xs, y :: ys, hlength, h => by
    refine ⟨h 0 x y rfl rfl, filledItems_of_forall (Nat.succ.inj hlength) fun i x' y' hx hy => ?_⟩
    rw [← behindAt_cons first]
    exact h (i + 1) x' y' hx hy

end Tree

namespace Assignment

open Epistemic.Tree (behindAt FilledItems)

/-- What stands at a place while the items `xs` are filled in.  Words before `bound` are `Closed`, and lists behind
operators are filled in up to the place `lists`. -/
inductive Place (σ : Assignment) (xs : List Tree) (Keep Closed : String → Prop) (bound lists i : Nat) : Tree → Prop
  | word {w u : String} (hx : xs[i]? = some (.word w)) (hkind : SameKind w u) (hspelled : IsSpelled u) (hkeep : Keep u)
      (hclosed : i < bound → Closed u) : Place σ xs Keep Closed bound lists i (.word u)
  | filled {ts us : List Tree} (hx : xs[i]? = some (.list ts)) (hbehind : behindAt false xs i = true) (hi : i ≤ lists)
      (h : FilledItems σ false ts us) : Place σ xs Keep Closed bound lists i (.list us)
  | passed {ts : List Tree} (hx : xs[i]? = some (.list ts)) (h : behindAt false xs i = true → lists < i) :
      Place σ xs Keep Closed bound lists i (.list ts)

/-- Items that all stand at their places. -/
structure Placed (σ : Assignment) (xs : List Tree) (Keep Closed : String → Prop) (bound lists : Nat)
    (items : List Tree) : Prop where
  length_eq : items.length = xs.length
  place : ∀ i t, items[i]? = some t → σ.Place xs Keep Closed bound lists i t

/-- A word that may be exchanged for another. -/
structure Renews (Keep Closed : String → Prop) (w u : String) : Prop where
  kind : SameKind w u
  spelled : IsSpelled u
  keep : Keep u
  closed : Closed u

section
variable {σ : Assignment} {xs items items' : List Tree} {Keep Closed : String → Prop} {bound lists i k : Nat}
  {t : Tree} {w u : String}

theorem Place.behindAt_succ (h : σ.Place xs Keep Closed bound lists i t) :
    behindAt false xs (i + 1) = t.isOperatorWord := by
  cases h with
  | word hx hkind => simp [behindAt, hx, Tree.isOperatorWord, hkind.isOperator_eq]
  | filled hx => simp [behindAt, hx, Tree.isOperatorWord]
  | passed hx => simp [behindAt, hx, Tree.isOperatorWord]

theorem Place.renew (h : σ.Place xs Keep Closed bound lists i (.word w)) (hu : Renews Keep Closed w u) :
    σ.Place xs Keep Closed k lists i (.word u) := by
  cases h with
  | word hx hkind =>
    exact .word hx (hkind.trans hu.kind) hu.spelled hu.keep fun _ => hu.closed

theorem Place.isSpelled (h : σ.Place xs Keep Closed bound lists i (.word w)) : IsSpelled w := by
  cases h with
  | word _ _ hspelled => exact hspelled

theorem Place.closed (h : σ.Place xs Keep Closed bound lists i (.word w)) (hi : i < bound) : Closed w := by
  cases h with
  | word _ _ _ _ hclosed => exact hclosed hi

/-- One more place holds no word that is not closed. -/
theorem Place.advance (h : σ.Place xs Keep Closed k lists i t) (hk : i = k → ∀ u, t = .word u → Closed u) :
    σ.Place xs Keep Closed (k + 1) lists i t := by
  cases h with
  | word hx hkind hspelled hkeep hclosed =>
    refine .word hx hkind hspelled hkeep fun hi => ?_
    rcases Nat.lt_succ_iff_lt_or_eq.1 hi with hi | hi
    · exact hclosed hi
    · exact hk hi _ rfl
  | filled hx hbehind hi h => exact .filled hx hbehind hi h
  | passed hx h => exact .passed hx h

namespace Placed

theorem advance (h : σ.Placed xs Keep Closed k lists items) (hk : ∀ u, items[k]? = some (.word u) → Closed u) :
    σ.Placed xs Keep Closed (k + 1) lists items := by
  refine ⟨h.length_eq, fun i t ht => (h.place i t ht).advance ?_⟩
  rintro rfl u rfl
  exact hk u ht

theorem set (hlength : items.length = xs.length)
    (hrest : ∀ i t, i ≠ k → items[i]? = some t → σ.Place xs Keep Closed bound lists i t)
    (hk : σ.Place xs Keep Closed bound lists k t) : σ.Placed xs Keep Closed bound lists (items.set k t) := by
  refine ⟨by rw [List.length_set, hlength], fun i u hu => ?_⟩
  by_cases hi : k = i
  · subst hi
    rw [List.getElem?_set_self'] at hu
    obtain ⟨_, -, rfl⟩ := Option.map_eq_some_iff.1 hu
    exact hk
  · rw [List.getElem?_set_ne hi] at hu
    exact hrest i u (Ne.symm hi) hu

end Placed

theorem exchange_eq_ok (h : exchange (.word w) (.word u) items = .ok items') :
    ∃ j, items[j]? = some (.word w) ∧ (∀ i, items[i]? = some (.word w) → j ≤ i) ∧ items' = items.set j (.word u) := by
  unfold exchange at h
  split at h
  · rename_i hmem
    have hmem : .word w ∈ items := by simpa using hmem
    cases h
    refine ⟨items.idxOf (.word w), ?_, fun i hi => ?_, rfl⟩
    · rw [List.getElem?_eq_getElem (List.idxOf_lt_length_of_mem hmem), List.getElem_idxOf]
    · obtain ⟨hlt, heq⟩ := List.getElem?_eq_some_iff.1 hi
      refine Nat.le_of_not_lt fun hj => ?_
      have hno := List.not_of_lt_findIdx hj
      rw [heq, beq_self_eq_true] at hno
      cases hno
  · cases h

namespace Placed

theorem exchange (h : σ.Placed xs Keep Closed bound lists items) (hu : Renews Keep Closed w u)
    (hrun : Assignment.exchange (.word w) (.word u) items = .ok items') :
    σ.Placed xs Keep Closed bound lists items' := by
  obtain ⟨j, hj, -, rfl⟩ := exchange_eq_ok hrun
  exact .set h.length_eq (fun i t _ => h.place i t) ((h.place j _ hj).renew hu)

/-- A word that is not closed stands nowhere before the place that was reached, so it is exchanged there. -/
theorem exchange_reached (h : σ.Placed xs Keep Closed k lists items) (hk : items[k]? = some (.word w))
    (hopen : ¬ Closed w) (hu : Renews Keep Closed w u)
    (hrun : Assignment.exchange (.word w) (.word u) items = .ok items') :
    σ.Placed xs Keep Closed (k + 1) lists items' := by
  obtain ⟨j, hj, hfirst, rfl⟩ := exchange_eq_ok hrun
  obtain rfl : j = k :=
    Nat.le_antisymm (hfirst k hk) (Nat.le_of_not_lt fun hlt => hopen ((h.place j _ hj).closed hlt))
  refine advance (.set h.length_eq (fun i t _ => h.place i t) ((h.place j _ hj).renew hu)) fun v hv => ?_
  rw [List.getElem?_set_self (List.getElem?_eq_some_iff.1 hj).1] at hv
  cases hv
  exact hu.closed

theorem exchangeEach (h : σ.Placed xs Keep Closed bound lists items) {agents : List String}
    {f : List Tree → String → Except Fault (List Tree)}
    (hf : ∀ agent ∈ agents, ∀ ys ys', f ys agent = .ok ys' →
      ∃ u, Renews Keep Closed w u ∧ Assignment.exchange (.word w) (.word u) ys = .ok ys')
    (hrun : agents.foldlM f items = .ok items') : σ.Placed xs Keep Closed bound lists items' := by
  induction agents generalizing items with
  | nil =>
    cases hrun
    exact h
  | cons agent agents ih =>
    obtain ⟨ys, hstep, hrun⟩ := except_bind_eq_ok.1 hrun
    obtain ⟨u, hu, hexchange⟩ := hf agent List.mem_cons_self items ys hstep
    exact ih (h.exchange hu hexchange) (fun a ha => hf a (List.mem_cons_of_mem agent ha)) hrun

/-- **Exchanging a word for each of its agents that is a variable** leaves a closed word at the place that was
reached. -/
theorem exchangeEach_reached (h : σ.Placed xs Keep Closed k lists items) (hk : items[k]? = some (.word w))
    {agents : List String} (hclosed : agents = [] ↔ Closed w) {f : List Tree → String → Except Fault (List Tree)}
    (hf : ∀ agent ∈ agents, ∀ ys ys', f ys agent = .ok ys' →
      ∃ u, Renews Keep Closed w u ∧ Assignment.exchange (.word w) (.word u) ys = .ok ys')
    (hrun : agents.foldlM f items = .ok items') : σ.Placed xs Keep Closed (k + 1) lists items' := by
  cases agents with
  | nil =>
    cases hrun
    refine h.advance fun v hv => ?_
    rw [hk] at hv
    cases hv
    exact hclosed.1 rfl
  | cons agent agents =>
    obtain ⟨ys, hstep, hrun⟩ := except_bind_eq_ok.1 hrun
    obtain ⟨u, hu, hexchange⟩ := hf agent List.mem_cons_self items ys hstep
    have hopen : ¬ Closed w := fun hw => List.cons_ne_nil agent agents (hclosed.2 hw)
    exact (h.exchange_reached hk hopen hu hexchange).exchangeEach
      (fun a ha => hf a (List.mem_cons_of_mem agent ha)) hrun

end Placed
end

/-! ## Operators -/

section
variable {σ : Assignment} {w : String}

theorem matching_belief (h : (Tree.word w).hasBelief = true) :
    σ.matching [insideOperator "B(" w] = [] ↔ σ.BeliefClosed w := by
  rw [List.eq_nil_iff_forall_not_mem, BeliefClosed]
  simp only [mem_matching, List.mem_singleton, not_and, h, forall_const, forall_eq]

theorem matching_common (h : (Tree.word w).hasCommonBelief = true) :
    σ.matching (agentsBeforeLast w) = [] ↔ σ.CommonClosed w := by
  rw [List.eq_nil_iff_forall_not_mem, CommonClosed]
  simp only [mem_matching, not_and, h, forall_const]

theorem isOperatorWord_of_belief (hw : IsSpelled w) (h : (Tree.word w).hasBelief = true) :
    ∃ before agents after, IsOperatorWord w before 'B' agents after := by
  obtain ⟨before, mark, agents, after, hform⟩ := hw (by rw [Literals.isOperator, h, Bool.true_or])
  obtain rfl := hform.hasBelief_iff.1 h
  exact ⟨before, agents, after, hform⟩

theorem isOperatorWord_of_common (hw : IsSpelled w) (h : (Tree.word w).hasCommonBelief = true) :
    ∃ before agents after, IsOperatorWord w before 'C' agents after := by
  obtain ⟨before, mark, agents, after, hform⟩ := hw (by rw [Literals.isOperator, h, Bool.or_true])
  obtain rfl := hform.hasCommonBelief_iff.1 h
  exact ⟨before, agents, after, hform⟩

theorem beliefClosed_of_common {before agents after : List Char} (h : IsOperatorWord w before 'C' agents after) :
    σ.BeliefClosed w := by
  intro hb
  cases h.hasBelief_iff.1 hb

theorem renews_belief (hσ : σ.Plain) (hw : IsSpelled w) (h : (Tree.word w).hasBelief = true) {o : String}
    (ho : σ.firstObject = .ok o) : Renews (fun _ => True) σ.BeliefClosed w ("B(" ++ o ++ ",") := by
  obtain ⟨before, agents, after, hform⟩ := isOperatorWord_of_belief hw h
  obtain ⟨hplain, -, hvars⟩ := hσ.firstObject ho
  have hnew := isOperatorWord_belief hplain.not_mem_marks.1 hplain.not_mem_marks.2.1
  refine ⟨hform.sameKind hnew, hnew.isSpelled, trivial, fun _ => ?_⟩
  rw [hnew.insideOperator_eq rfl, if_neg hplain.1, List.nil_append, List.append_nil, String.ofList_toList]
  exact hvars

theorem renews_common (hσ : σ.Plain) (hw : IsSpelled w) (h : (Tree.word w).hasCommonBelief = true) {o agent : String}
    (ho : σ.firstObject = .ok o) (hagent : agent ∈ σ.matching (agentsBeforeLast w)) :
    Renews (fun _ => True) σ.BeliefClosed w
      (String.ofList (Text.replaceAll agent.toList o.toList w.toList)) := by
  obtain ⟨before, agents, after, hform⟩ := isOperatorWord_of_common hw h
  obtain ⟨hplain, hcomma, -⟩ := hσ.firstObject ho
  obtain ⟨hbefore, hvar⟩ := mem_matching.1 hagent
  have hv := hσ.isPlainWord hvar
  have hv' : ',' ∉ agent.toList := by
    obtain ⟨run, hrun, rfl⟩ := List.mem_map.1 hbefore
    rw [String.toList_ofList]
    exact Text.not_mem_of_mem_splitOn (by simp) (List.dropLast_subset _ (List.mem_filter.1 hrun).1)
  have hnew := hform.replaceAll hv.1 hv.not_mem_marks.2.2 hv.not_mem_marks.1 hv' hplain.not_mem_marks.1
    hplain.not_mem_marks.2.1 hcomma
  exact ⟨hform.sameKind hnew, hnew.isSpelled, trivial, beliefClosed_of_common hnew⟩

theorem renews_collapsed (hσ : σ.Plain) (hw : IsSpelled w) (h : (Tree.word w).hasCommonBelief = true) {o : String}
    (ho : σ.firstObject = .ok o) : Renews σ.BeliefClosed σ.CommonClosed w ("C([" ++ o ++ "],") := by
  obtain ⟨before, agents, after, hform⟩ := isOperatorWord_of_common hw h
  obtain ⟨hplain, hcomma, hvars⟩ := hσ.firstObject ho
  have hnew := isOperatorWord_collapsed hplain.not_mem_marks.1 hplain.not_mem_marks.2.1
  refine ⟨hform.sameKind hnew, hnew.isSpelled, beliefClosed_of_common hnew, fun _ agent hagent => ?_⟩
  -- it has one agent, so there is none before the last
  have hone : Text.splitOn (· == ',') ('[' :: (o.toList ++ [']'])) = ['[' :: (o.toList ++ [']'])] := by
    refine Text.splitOn_of_forall fun c hc => beq_false_of_ne ?_
    rintro rfl
    simp [hcomma] at hc
  have hnone : agentsBeforeLast ("C([" ++ o ++ "],") = [] := by
    rw [agentsBeforeLast, hnew.insideOperator_eq rfl, if_neg (List.cons_ne_nil _ _), String.toList_ofList,
      List.nil_append, List.append_nil, hone]
    rfl
  rw [hnone] at hagent
  cases hagent

end

/-! ## Steps -/

section
variable {σ : Assignment} {xs items items' : List Tree} {k n : Nat} {l l' : Fluents}

open Work (perform_bind_eq_ok perform_ofExcept_bind_eq_ok)

variable (σ xs) in
/-- The items while operators are filled in, up to a place. -/
abbrev Filling (bound lists : Nat) : List Tree → Prop := σ.Placed xs (fun _ => True) σ.BeliefClosed bound lists

variable (σ xs) in
/-- The items while operators of several agents are collapsed, up to a place. -/
abbrev Collapsing (bound : Nat) : List Tree → Prop := σ.Placed xs σ.BeliefClosed σ.CommonClosed bound xs.length

/-- What is filled in behind an operator. -/
def FillsLists (σ : Assignment) (xs : List Tree) (inner : Tree → Work Fluents Tree) : Prop :=
  ∀ ts u l l', .list ts ∈ xs → (inner (.list ts)).perform l = (.ok u, l') →
    ∃ us, u = .list us ∧ FilledItems σ false ts us

theorem Place.widen {Keep Closed : String → Prop} {bound lists i : Nat} {t : Tree}
    (h : σ.Place xs Keep Closed bound lists i t)
    (hi : t.isList = true → behindAt false xs i = true → i ≠ lists + 1) :
    σ.Place xs Keep Closed bound (lists + 1) i t := by
  cases h with
  | word hx hkind hspelled hkeep hclosed => exact .word hx hkind hspelled hkeep hclosed
  | filled hx hb hle h => exact .filled hx hb (Nat.le_succ_of_le hle) h
  | passed hx h => exact .passed hx fun hb => Nat.lt_of_le_of_ne (h hb) (Ne.symm (hi rfl hb))

theorem Placed.fillBehind {inner : Tree → Work Fluents Tree} (hinner : FillsLists σ xs inner)
    (h : σ.Filling xs (k + 1) k items) (hbehind : behindAt false xs (k + 1) = true)
    (hrun : (Assignment.fillBehind inner k items).perform l = (.ok items', l')) :
    σ.Filling xs (k + 1) (k + 1) items' := by
  unfold Assignment.fillBehind at hrun
  split at hrun
  · cases hrun
  · rename_i v hv
    cases hrun
    refine ⟨h.length_eq, fun i t ht => (h.place i t ht).widen fun hlist _ => ?_⟩
    rintro rfl
    rw [hv] at ht
    cases ht
    cases hlist
  · rename_i ts hts
    obtain ⟨u, l₁, hu, hrun⟩ := perform_bind_eq_ok.1 hrun
    cases hrun
    refine .set h.length_eq (fun i t hi ht => (h.place i t ht).widen fun _ _ => hi) ?_
    cases h.place _ _ hts with
    | filled _ _ hi => exact absurd hi (Nat.not_succ_le_self k)
    | passed hx =>
      obtain ⟨us, rfl, hus⟩ := hinner ts u l _ (List.mem_of_getElem? hx) hu
      exact .filled hx hbehind (Nat.le_refl _) hus

theorem Placed.fillBelief (hσ : σ.Plain) (h : σ.Filling xs k k items) {w : String} (ht : items[k]? = some (.word w))
    (hb : (Tree.word w).hasBelief = true) (hrun : σ.fillBelief w items = .ok items') :
    σ.Filling xs (k + 1) k items' := by
  rw [fillBelief_eq] at hrun
  refine h.exchangeEach_reached ht (matching_belief hb) (fun _ _ ys ys' hstep => ?_) hrun
  obtain ⟨o, ho, hstep⟩ := except_bind_eq_ok.1 hstep
  exact ⟨_, renews_belief hσ (h.place k _ ht).isSpelled hb ho, hstep⟩

theorem Placed.fillCommonBelief (hσ : σ.Plain) {bound : Nat} (h : σ.Filling xs bound k items) {w : String}
    (ht : items[k]? = some (.word w)) (hc : (Tree.word w).hasCommonBelief = true)
    (hrun : σ.forEachAgent w (σ.fillCommonBelief w) items = .ok items') : σ.Filling xs bound k items' := by
  rw [forEachAgent_eq] at hrun
  refine h.exchangeEach (w := w) (fun agent hagent ys ys' hstep => ?_) hrun
  unfold Assignment.fillCommonBelief at hstep
  split at hstep
  · obtain ⟨o, ho, hstep⟩ := except_bind_eq_ok.1 hstep
    exact ⟨_, renews_common hσ (h.place k _ ht).isSpelled hc ho hagent, hstep⟩
  · cases hstep

theorem perform_stop_ne_ok {α : Type} {e : Fault} {a : α} : (Work.stop e : Work Fluents α).perform l ≠ (.ok a, l') :=
  fun h => nomatch h

/-- **One step of filling in operators.** -/
theorem Placed.fillOperator (hσ : σ.Plain) {inner : Tree → Work Fluents Tree} (hinner : FillsLists σ xs inner)
    (hk : k < xs.length) (h : σ.Filling xs k k items)
    (hrun : (σ.fillOperator inner items k).perform l = (.ok items', l')) : σ.Filling xs (k + 1) (k + 1) items' := by
  obtain ⟨t, ht⟩ : ∃ t, items[k]? = some t := ⟨_, List.getElem?_eq_getElem (h.length_eq ▸ hk)⟩
  have hbehind := (h.place k t ht).behindAt_succ
  simp only [Assignment.fillOperator, ht] at hrun
  by_cases hb : t.hasBelief = true
  · rw [if_pos hb] at hrun
    cases t with
    | list ts => exact absurd hrun perform_stop_ne_ok
    | word w =>
      obtain ⟨ys, hys, hrun⟩ := perform_ofExcept_bind_eq_ok.1 hrun
      rw [Tree.isOperatorWord, Literals.isOperator, hb, Bool.true_or] at hbehind
      exact (h.fillBelief hσ ht hb hys).fillBehind hinner hbehind hrun
  · rw [if_neg hb] at hrun
    have h : σ.Filling xs (k + 1) k items := h.advance fun u hu hbelief => by
      rw [ht] at hu
      cases hu
      exact absurd hbelief hb
    by_cases hc : t.hasCommonBelief = true
    · rw [if_pos hc] at hrun
      cases t with
      | list ts => exact absurd hrun perform_stop_ne_ok
      | word w =>
        obtain ⟨ys, hys, hrun⟩ := perform_ofExcept_bind_eq_ok.1 hrun
        rw [Tree.isOperatorWord, Literals.isOperator, hc, Bool.or_true] at hbehind
        exact (h.fillCommonBelief hσ ht hc hys).fillBehind hinner hbehind hrun
    · rw [if_neg hc] at hrun
      cases hrun
      have hnone : t.isOperatorWord = false := by
        cases t with
        | list ts => rfl
        | word w => simp [Tree.isOperatorWord, Literals.isOperator, hb, hc]
      refine ⟨h.length_eq, fun i u hu => (h.place i u hu).widen fun _ hbehind' => ?_⟩
      rintro rfl
      rw [hbehind, hnone] at hbehind'
      cases hbehind'

/-- **One step of collapsing operators of several agents.** -/
theorem Placed.collapseOperator (hσ : σ.Plain) (h : σ.Collapsing xs k items)
    (hrun : σ.collapseOperator items k = .ok items') : σ.Collapsing xs (k + 1) items' := by
  unfold Assignment.collapseOperator at hrun
  split at hrun
  · rename_i hnone
    cases hrun
    refine h.advance fun u hu => ?_
    rw [hnone] at hu
    cases hu
  · rename_i t ht
    by_cases hc : t.hasCommonBelief = true
    · rw [if_pos hc] at hrun
      cases t with
      | list ts => cases hrun
      | word w =>
        simp only [forEachAgent_eq] at hrun
        refine h.exchangeEach_reached ht (matching_common hc) (fun _ _ zs zs' hstep => ?_) hrun
        obtain ⟨o, ho, hstep⟩ := except_bind_eq_ok.1 hstep
        exact ⟨_, renews_collapsed hσ (h.place k _ ht).isSpelled hc ho, hstep⟩
    · rw [if_neg hc] at hrun
      cases hrun
      refine h.advance fun u hu hcommon => ?_
      rw [ht] at hu
      cases hu
      exact absurd hcommon hc

end

/-! ## Variables among the items -/

/-- Filling in the items changes those that are variables, and leaves none, if no object is a variable. -/
theorem fillItems_eq_ok : ∀ {vars objects items items' : List Tree}, fillItems vars objects items = .ok items' →
    (∀ o ∈ objects, o ∉ vars) →
    ∃ f : Tree → Tree, items' = items.map f ∧ (∀ t, t ∉ vars → f t = t) ∧ (∀ t, f t = t ∨ f t ∈ objects) ∧
      ∀ t ∈ items, f t ∉ vars
  | [], _, items, items', h, _ => by
    cases h
    exact ⟨id, (List.map_id _).symm, fun _ _ => rfl, fun _ => .inl rfl, fun _ _ => List.not_mem_nil⟩
  | v :: vs, objects, items, items', h, hobjects => by
    unfold fillItems at h
    split at h
    · split at h
      · cases h
      · rename_i o os
        have hos : ∀ o' ∈ os, o' ∉ vs := fun o' ho' hvs =>
          hobjects o' (List.mem_cons_of_mem o ho') (List.mem_cons_of_mem v hvs)
        have ho : o ≠ v := fun heq => hobjects o List.mem_cons_self (heq ▸ List.mem_cons_self)
        rw [if_neg (mt beq_iff_eq.1 ho)] at h
        obtain ⟨f, rfl, hkeep, hrange, hgone⟩ := fillItems_eq_ok h hos
        have hput : ∀ t, (if t == v then o else t) ≠ v := fun t => by
          split
          · exact ho
          · rename_i htv
            exact fun heq => htv (beq_iff_eq.2 heq)
        refine ⟨f ∘ fun t => if t == v then o else t, List.map_map, fun t ht => ?_, fun t => ?_, fun t ht => ?_⟩
        · have htv : ¬ (t == v) = true := fun heq => ht (beq_iff_eq.1 heq ▸ List.mem_cons_self)
          rw [Function.comp_apply, if_neg htv]
          exact hkeep t fun hvs => ht (List.mem_cons_of_mem v hvs)
        · rw [Function.comp_apply]
          split
          · refine .inr ((hrange o).elim (fun heq => ?_) (List.mem_cons_of_mem o))
            rw [heq]
            exact List.mem_cons_self
          · exact (hrange t).imp_right (List.mem_cons_of_mem o)
        · rw [Function.comp_apply, List.mem_cons, not_or]
          refine ⟨fun heq => ?_, hgone _ (List.mem_map_of_mem ht)⟩
          rcases hrange (if t == v then o else t) with hsame | hin
          · exact hput t (hsame.symm.trans heq)
          · rw [heq] at hin
            exact hobjects v (List.mem_cons_of_mem o hin) List.mem_cons_self
    · rename_i hnone
      have htail : ∀ o ∈ objects.tail, o ∉ vs := fun o ho hvs =>
        hobjects o (List.mem_of_mem_tail ho) (List.mem_cons_of_mem v hvs)
      obtain ⟨f, rfl, hkeep, hrange, hgone⟩ := fillItems_eq_ok h htail
      refine ⟨f, rfl, fun t ht => hkeep t fun hvs => ht (List.mem_cons_of_mem v hvs),
        fun t => (hrange t).imp_right List.mem_of_mem_tail, fun t ht => ?_⟩
      rw [List.mem_cons, not_or]
      refine ⟨fun heq => ?_, hgone t ht⟩
      rcases hrange t with hsame | hin
      · rw [hsame] at heq
        exact hnone (by simpa using heq ▸ ht)
      · rw [heq] at hin
        exact hobjects v (List.mem_of_mem_tail hin) List.mem_cons_self

theorem Plain.wordFilled {σ : Assignment} (hσ : σ.Plain) {f : Tree → Tree} (hkeep : ∀ t, t ∉ σ.vars → f t = t)
    (hrange : ∀ t, f t = t ∨ f t ∈ σ.objects) {w u : String} (hgone : f (.word u) ∉ σ.vars) (hkind : SameKind w u)
    (hspelled : IsSpelled u) (hbelief : σ.BeliefClosed u) (hcommon : σ.CommonClosed u) :
    ∃ u', f (.word u) = .word u' ∧ σ.WordFilled w u' := by
  by_cases hu : .word u ∈ σ.vars
  · -- a variable is no operator, and an object is in its place
    have hplain := hσ.isPlainWord hu
    rcases hrange (.word u) with hsame | hobject
    · rw [hsame] at hgone
      exact absurd hu hgone
    · obtain ⟨o, ho, hobjectPlain, -⟩ := hσ.objects _ hobject
      rw [ho] at hgone
      have hnone := hplain.isOperator_eq_false
      have hnone' := hobjectPlain.isOperator_eq_false
      have hkind' : SameKind u o := by
        rw [Literals.isOperator, Bool.or_eq_false_iff] at hnone hnone'
        exact ⟨hnone'.1.trans hnone.1.symm, hnone'.2.trans hnone.2.symm⟩
      rw [Literals.isOperator, Bool.or_eq_false_iff] at hnone'
      refine ⟨o, ho, hkind.trans hkind', .of_not_mem hobjectPlain.not_mem_marks.1, fun hb => ?_, fun hc => ?_,
        fun _ => hgone⟩
      · rw [hnone'.1] at hb
        cases hb
      · rw [hnone'.2] at hc
        cases hc
  · exact ⟨u, hkeep _ hu, hkind, hspelled, hbelief, hcommon, fun _ => hu⟩

/-- Items whose operators were filled in and collapsed are filled in with the objects among them. -/
theorem Placed.fillItems {σ : Assignment} (hσ : σ.Plain) {xs items items' : List Tree}
    (h : σ.Collapsing xs xs.length items) (hrun : Assignment.fillItems σ.vars σ.objects items = .ok items') :
    FilledItems σ false xs items' := by
  obtain ⟨f, rfl, hkeep, hrange, hgone⟩ := fillItems_eq_ok hrun hσ.apart
  have hlists : ∀ ts, f (.list ts) = .list ts := fun ts => hkeep _ fun hvar => by
    obtain ⟨v, hv, -⟩ := hσ.vars _ hvar
    cases hv
  refine Tree.filledItems_of_forall (by rw [List.length_map, h.length_eq]) fun i x y hx hy => ?_
  have hi := (List.getElem?_eq_some_iff.1 hx).1
  rw [List.getElem?_map] at hy
  obtain ⟨t, ht, rfl⟩ := Option.map_eq_some_iff.1 hy
  cases h.place i t ht with
  | word hx' hkind hspelled hbelief hcommon =>
    obtain ⟨u', hu', hfilled⟩ :=
      hσ.wordFilled hkeep hrange (hgone _ (List.mem_of_getElem? ht)) hkind hspelled hbelief (hcommon hi)
    rw [hx] at hx'
    cases hx'
    rw [hu']
    exact hfilled
  | filled hx' hbehind _ hts =>
    rw [hx] at hx'
    cases hx'
    rw [hlists, hbehind]
    exact hts
  | passed hx' hpassed =>
    rw [hx] at hx'
    cases hx'
    have hnone : behindAt false xs i = false :=
      Bool.eq_false_iff.2 fun hbehind => absurd (hpassed hbehind) (Nat.not_lt.2 (Nat.le_of_lt hi))
    rw [hlists, hnone]
    rfl

end Assignment

/-! ## Runs -/

/-- A loop over numbered places keeps what each of its steps keeps, in steps that may record or stop. -/
theorem foldlM_range_keeps {m : Type → Type} [Monad m] {β : Type} {R : m β → β → Prop}
    (hpure : ∀ {b b'}, R (pure b) b' → b' = b)
    (hbind : ∀ {w : m β} {g : β → m β} {b'}, R (w >>= g) b' → ∃ b, R w b ∧ R (g b) b')
    {f : β → Nat → m β} {I : Nat → β → Prop} {n : Nat}
    (hstep : ∀ {k b b'}, k < n → I k b → R (f b k) b' → I (k + 1) b') {b b' : β} (hb : I 0 b)
    (h : R ((List.range n).foldlM f b) b') : I n b' := by
  have hrun : ∀ (count k : Nat) (b : β), k + count = n → I k b → R ((List.range' k count).foldlM f b) b' → I n b' := by
    intro count
    induction count with
    | zero =>
      intro k b hk hb h
      rw [hpure h]
      exact hk ▸ hb
    | succ count ih =>
      intro k b hk hb h
      rw [List.range'_succ, List.foldlM_cons] at h
      obtain ⟨b₁, hfirst, h⟩ := hbind h
      exact ih (k + 1) b₁ (by omega) (hstep (by omega) hb hfirst) h
  rw [List.range_eq_range'] at h
  exact hrun n 0 b (Nat.zero_add n) hb h

theorem Tree.depth_le_depthItems {x : Tree} : ∀ {xs : List Tree}, x ∈ xs → x.depth ≤ Tree.depthItems xs
  | y :: ys, h => by
    rw [Tree.depthItems]
    rcases List.mem_cons.1 h with rfl | h
    · exact Nat.le_max_left _ _
    · exact Nat.le_trans (depth_le_depthItems h) (Nat.le_max_right _ _)

theorem Tree.depth_lt_of_mem_items {t : Tree} {ts : List Tree} {fuel : Nat} (ht : t.depth < fuel + 1)
    (h : .list ts ∈ t.items) : (Tree.list ts).depth < fuel := by
  cases t with
  | word w =>
    obtain ⟨c, -, hc⟩ := List.mem_map.1 h
    cases hc
  | list xs =>
    rw [Tree.depth] at ht
    exact Nat.lt_of_le_of_lt (Tree.depth_le_depthItems h) (Nat.lt_of_succ_lt_succ ht)

open Assignment Work in
/-- **What filling in a formula reaches.** -/
theorem filledItems_of_substituteWithin {σ : Assignment} (hσ : σ.Plain) (recorded : Bool) : ∀ (fuel : Nat) (t u : Tree)
    (l l' : Fluents), t.depth < fuel → t.AllWords IsSpelled →
    (substituteWithin σ recorded fuel t).perform l = (.ok u, l') →
    ∃ us, u = .list us ∧ Tree.FilledItems σ false t.items us
  | 0, _, _, _, _, hdepth, _, _ => absurd hdepth (Nat.not_lt_zero _)
  | fuel + 1, t, u, l, l', hdepth, hwords, h => by
    have hitems := hwords.items wordClass_isSpelled
    have hinner : FillsLists σ t.items (substituteWithin σ recorded fuel) := fun ts u l l' hts =>
      filledItems_of_substituteWithin hσ recorded fuel (.list ts) u l l' (Tree.depth_lt_of_mem_items hdepth hts)
        (hitems _ hts)
    rw [substituteWithin] at h
    obtain ⟨filled, l₁, hfilled, h⟩ := perform_bind_eq_ok.1 h
    obtain ⟨collapsed, hcollapsed, h⟩ := perform_ofExcept_bind_eq_ok.1 h
    obtain ⟨items, hfill, h⟩ := perform_ofExcept_bind_eq_ok.1 h
    -- nothing is filled in at first
    have hstart : σ.Filling t.items 0 0 t.items := by
      refine ⟨rfl, fun i x hx => ?_⟩
      cases x with
      | word w => exact .word hx ⟨rfl, rfl⟩ (hitems _ (List.mem_of_getElem? hx)) trivial (absurd · (Nat.not_lt_zero i))
      | list ts =>
        refine .passed hx fun hbehind => Nat.pos_of_ne_zero ?_
        rintro rfl
        cases hbehind
    have hfilled : σ.Filling t.items t.items.length t.items.length filled := by
      refine foldlM_range_keeps (R := fun (w : Work Fluents (List Tree)) b => ∃ l l', w.perform l = (.ok b, l'))
        (I := fun k => σ.Filling t.items k k) ?_ ?_ ?_ hstart ⟨l, l₁, hfilled⟩
      · rintro b b' ⟨l, l', hrun⟩
        cases hrun
        rfl
      · rintro w g b' ⟨l, l', hrun⟩
        obtain ⟨b, l₁, hfirst, hrun⟩ := perform_bind_eq_ok.1 hrun
        exact ⟨b, ⟨l, l₁, hfirst⟩, l₁, l', hrun⟩
      · rintro k b b' hk hb ⟨l, l', hrun⟩
        exact hb.fillOperator hσ hinner hk hrun
    have hcollapsed : σ.Collapsing t.items t.items.length collapsed := by
      refine foldlM_range_keeps (R := fun (r : Except Fault (List Tree)) b => r = .ok b) (I := σ.Collapsing t.items)
        ?_ except_bind_eq_ok.1 ?_ ?_ hcollapsed
      · intro b b' hrun
        cases hrun
        rfl
      · intro k b b' _ hb hrun
        exact hb.collapseOperator hσ hrun
      · refine ⟨hfilled.length_eq, fun i x hx => ?_⟩
        have hi : i < t.items.length := hfilled.length_eq ▸ (List.getElem?_eq_some_iff.1 hx).1
        cases hfilled.place i x hx with
        | word hx' hkind hspelled _ hclosed =>
          exact .word hx' hkind hspelled (hclosed hi) (absurd · (Nat.not_lt_zero i))
        | filled hx' hbehind hle h => exact .filled hx' hbehind hle h
        | passed hx' h => exact .passed hx' h
    refine ⟨items, ?_, hcollapsed.fillItems hσ hfill⟩
    cases recorded with
    | false =>
      cases h
      rfl
    | true =>
      obtain ⟨_, l₂, _, h⟩ := perform_bind_eq_ok.1 h
      cases h
      rfl

end Epistemic
