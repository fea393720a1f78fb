import Epistemic.Proofs.Phrases
/-!
# Ground beliefs

Objects are put into a belief in three sweeps: over its operators, whereby what stands in a list of its own is filled
in, over the operators of several agents once more, and over its words.  A belief whose operators are settled comes out
of them with an object for every variable among its words, and with its operators filled in
(`Phrase.perform_substitute`).
-/
namespace Epistemic

open Assignment (ofNames objectFor objectTree)

namespace Phrase

/-- A belief as a tree. -/
def tree (φ : Phrase) : Tree := .list φ.items

/-- A belief with objects in place of variables. -/
def filled (vars objects : List String) : Phrase → Phrase
  | atom ws => atom (ws.map (objectFor vars objects))
  | believed as φ => believed (filledAgents vars objects as) (φ.filled vars objects)
  | enclosed as φ => enclosed (filledAgents vars objects as) (φ.filled vars objects)

/-- A belief after the first sweep: its own words are not filled in yet. -/
def swept (vars objects : List String) : Phrase → Phrase
  | atom ws => atom ws
  | believed as φ => believed (filledAgents vars objects as) (φ.swept vars objects)
  | enclosed as φ => enclosed (filledAgents vars objects as) (φ.filled vars objects)

/-- A belief whose operators are settled. -/
def IsSettled (vars objects : List String) (φ : Phrase) : Prop :=
  φ.Each (fun w => '(' ∉ w.toList) (SettledOperator vars objects)

theorem IsClear.word_not_mem {φ : Phrase} (h : φ.IsClear) {op : String} (hopen : '(' ∈ op.toList)
    (hcomma : ',' ∉ op.toList) : .word op ∉ φ.items := by
  have hoperator : ∀ as, Tree.word op ≠ operatorTree as := by
    intro as heq
    refine hcomma ?_
    rw [Tree.word.inj heq, toList_operatorName]
    simp
  induction φ with
  | atom ws =>
    intro hmem
    obtain ⟨w, hw, heq⟩ := List.mem_map.1 hmem
    exact h.2 w hw (Tree.word.inj heq ▸ hopen)
  | believed as φ ih =>
    rw [items, List.mem_cons, not_or]
    exact ⟨hoperator as, ih h.2⟩
  | enclosed as φ => simp [items, hoperator as]

theorem IsClear.isOperator_tree {φ : Phrase} (h : φ.IsClear) :
    φ.tree.hasBelief = false ∧ φ.tree.hasCommonBelief = false := by
  refine ⟨Bool.eq_false_iff.2 fun hb => ?_, Bool.eq_false_iff.2 fun hc => ?_⟩
  · exact h.word_not_mem (by decide) (by decide) (List.contains_iff_mem.1 hb)
  · exact h.word_not_mem (by decide) (by decide) (List.contains_iff_mem.1 hc)

theorem filled_nil (φ : Phrase) : φ.filled [] [] = φ := by
  have hagents : ∀ as, filledAgents [] [] as = as := by
    intro as
    have hfirst : Assignment.firstFor [] [] = id := rfl
    simp [filledAgents, lookedUp, hfirst]
  induction φ with
  | atom ws =>
    have hkept : objectFor [] [] = id := rfl
    rw [filled, hkept, List.map_id]
  | believed as φ ih => rw [filled, ih, hagents]
  | enclosed as φ ih => rw [filled, ih, hagents]

section
variable {vars objects : List String} (h : ObjectsFor vars objects) {φ : Phrase}
include h

theorem Each.filled {word : String → Prop} (hφ : φ.Each word (SettledOperator vars objects))
    (hobjects : ∀ o ∈ objects, word o) : (φ.filled vars objects).Each word fun as => ∀ a ∈ as, IsAgentWord a := by
  induction φ with
  | atom ws => exact ⟨mt List.map_eq_nil_iff.1 hφ.1, Assignment.forall_mem_map_objectFor hobjects hφ.2⟩
  | believed as φ ih => exact ⟨(hφ.1.filled h).1.agents, ih hφ.2⟩
  | enclosed as φ ih => exact ⟨(hφ.1.filled h).1.agents, ih hφ.2⟩

theorem IsSettled.isClear_filled (hφ : φ.IsSettled vars objects) : (φ.filled vars objects).IsClear :=
  (Each.filled h hφ fun o ho => (h.agent o ho).1.not_mem (by decide)).imp (fun _ hw => hw)
    fun _ has a ha => (has a ha).1.not_mem (by decide)

/-- **The first sweep fills in the operators**, and with `inner` what stands in a list of its own. -/
theorem foldlM_fillOperator_items (inner : Tree → Work Fluents Tree) {l : Fluents} (hφ : φ.IsSettled vars objects)
    (hinner : ∀ ψ : Phrase, ψ.IsSettled vars objects → ψ.tree.depth < φ.tree.depth →
      (inner ψ.tree).perform l = (.ok (ψ.filled vars objects).tree, l)) :
    ∀ before, (∀ op, SettledOperator vars objects op → IsOpen vars op → operatorTree op ∉ before) →
      ((List.range' before.length φ.items.length).foldlM ((ofNames vars objects).fillOperator inner)
        (before ++ φ.items)).perform l = (.ok (before ++ (φ.swept vars objects).items), l) := by
  induction φ with
  | atom ws =>
    intro before _
    rw [items, List.length_map]
    exact Assignment.foldlM_fillOperator_words _ _ (fun w hw => isOperator_of_not_mem (hφ.2 w hw)) before l
  | believed as φ ih =>
    intro before hbefore
    obtain ⟨w, rest, hitems⟩ := Each.items_eq hφ.2
    have hstep := hφ.1.fillOperator h (hbefore as hφ.1) inner w rest l
    rw [← hitems] at hstep
    -- an operator that was filled in is none that is still to be exchanged
    have hrest := ih hφ.2 (fun ψ hψ hlt => hinner ψ hψ
      (by simpa [tree, items, operatorTree, Tree.depth, Tree.depthItems]
      using hlt)) (before ++ [operatorTree (filledAgents vars objects as)]) fun op hop hopen => by
        rw [List.mem_append, not_or]
        exact ⟨hbefore op hop hopen, not_mem_filled h (List.forall_mem_singleton.2 hφ.1) hop hopen⟩
    rw [items, List.length_cons, List.range'_succ, List.foldlM_cons, Work.perform_bind_ok hstep]
    simpa [swept, items] using hrest
  | enclosed as φ ih =>
    intro before hbefore
    have hlist := hinner φ hφ.2 (by simp [tree, items, operatorTree, Tree.depth, Tree.depthItems])
    have hstep : ((ofNames vars objects).fillOperator inner
        (before ++ [operatorTree as, φ.tree]) before.length).perform l =
        (.ok (before ++ [operatorTree (filledAgents vars objects as), (φ.filled vars objects).tree]), l) := by
      have hbehind : (before ++ [operatorTree (filledAgents vars objects as), φ.tree])[before.length + 1]? =
          some (.list φ.items) := by simp [tree]
      rw [hφ.1.fillOperator_behind h (hbefore as hφ.1), Assignment.fillBehind, hbehind]
      refine (Work.perform_bind_ok hlist).trans ?_
      simp
    obtain ⟨hbelief, hcommon⟩ := (IsSettled.isClear_filled h hφ.2).isOperator_tree
    have hlast : ((ofNames vars objects).fillOperator inner
        (before ++ [operatorTree (filledAgents vars objects as), (φ.filled vars objects).tree])
        (before.length + 1)).perform l =
        (.ok (before ++ [operatorTree (filledAgents vars objects as), (φ.filled vars objects).tree]), l) := by
      have hplace : (before ++ [operatorTree (filledAgents vars objects as),
          (φ.filled vars objects).tree])[before.length + 1]? = some (φ.filled vars objects).tree := by simp
      rw [Assignment.fillOperator, hplace]
      simp only [hbelief, hcommon, Bool.false_eq_true, if_false]
      rfl
    have hplaces : List.range' before.length (enclosed as φ).items.length = [before.length, before.length + 1] := rfl
    rw [hplaces, List.foldlM_cons]
    refine (Work.perform_bind_ok hstep).trans ?_
    rw [List.foldlM_cons]
    exact (Work.perform_bind_ok hlast).trans rfl

theorem collapseOperator_swept (hφ : φ.IsSettled vars objects) (places : List Nat) :
    places.foldlM (ofNames vars objects).collapseOperator (φ.swept vars objects).items =
      .ok (φ.swept vars objects).items := by
  have hitems : ∀ t ∈ (φ.swept vars objects).items, IsQuiet vars t ∨ t.hasCommonBelief = false := by
    induction φ with
    | atom ws =>
      intro t ht
      obtain ⟨w, hw, rfl⟩ := List.mem_map.1 ht
      exact .inr (Bool.or_eq_false_iff.1 (isOperator_of_not_mem (hφ.2 w hw))).2
    | believed as φ ih => exact List.forall_mem_cons.2 ⟨.inl (.inl ⟨_, (hφ.1.filled h).1, rfl⟩), ih hφ.2⟩
    | enclosed as φ _ =>
      exact List.forall_mem_cons.2 ⟨.inl (.inl ⟨_, (hφ.1.filled h).1, rfl⟩),
        List.forall_mem_singleton.2 (.inr (IsSettled.isClear_filled h hφ.2).isOperator_tree.2)⟩
  refine Assignment.foldlM_collapseOperator_of_forall places fun k _ => ?_
  cases ht : (φ.swept vars objects).items[k]? with
  | none => exact Assignment.collapseOperator_plain (by simp [ht])
  | some t =>
    rcases hitems t (List.mem_of_getElem? ht) with hquiet | hcommon
    · exact collapseOperator_of_isQuiet h (by simpa [ht] using hquiet)
    · exact Assignment.collapseOperator_plain (by simpa [ht] using hcommon)

/-- Operators are no variables, so only the words are filled in at last. -/
theorem fillItems_swept (φ : Phrase) :
    Assignment.fillItems (vars.map .word) (objects.map .word) (φ.swept vars objects).items =
      .ok (φ.filled vars objects).items := by
  have hoperator : ∀ as, objectTree vars objects (operatorTree as) = operatorTree as := fun as =>
    congrArg Tree.word <| Assignment.objectFor_of_not_mem fun hmem =>
      (h.plain _ hmem).not_mem_marks.1 (MAp.parenthesis_mem_operatorName as)
  rw [Assignment.fillItems_trees _ h.length h.apart, Except.ok.injEq]
  induction φ with
  | atom ws => simp [swept, Phrase.filled, items, objectTree]
  | believed as φ ih => rw [swept, Phrase.filled, items, items, List.map_cons, hoperator, ih]
  | enclosed as φ _ => rw [swept, Phrase.filled, items, List.map_cons, hoperator]; rfl

theorem perform_substituteWithin (l : Fluents) : ∀ {fuel : Nat} {φ : Phrase}, φ.IsSettled vars objects →
    φ.tree.depth < fuel → (substituteWithin (ofNames vars objects) false fuel φ.tree).perform l =
      (.ok (φ.filled vars objects).tree, l) := by
  intro fuel
  -- the fuel bounds the depth, and what stands in a list of its own is less deep
  induction fuel with
  | zero => exact fun _ hdepth => absurd hdepth (Nat.not_lt_zero _)
  | succ fuel ih =>
    intro φ hφ hdepth
    have hsweep := foldlM_fillOperator_items h (substituteWithin (ofNames vars objects) false fuel) (l := l) hφ
      (fun ψ hψ hlt => ih hψ (by omega)) [] (fun _ _ _ => List.not_mem_nil)
    rw [List.length_nil, ← List.range_eq_range', List.nil_append, List.nil_append] at hsweep
    rw [substituteWithin, tree, Tree.items, Work.perform_bind_ok hsweep, collapseOperator_swept h hφ,
      Work.perform_bind_ok (Work.perform_ofExcept _ l), ofNames, fillItems_swept h,
      Work.perform_bind_ok (Work.perform_ofExcept _ l)]
    rfl

/-- **A belief is filled in as a whole.** -/
theorem perform_substitute (hφ : φ.IsSettled vars objects) (l : Fluents) :
    (substitute (ofNames vars objects) false φ.tree).perform l = (.ok (φ.filled vars objects).tree, l) :=
  perform_substituteWithin h l hφ (Nat.lt_succ_self _)

theorem perform_substituteEach (l : Fluents) : ∀ {φs : List Phrase}, (∀ φ ∈ φs, φ.IsSettled vars objects) →
    (substituteEach (ofNames vars objects) false (φs.map tree)).perform l =
      (.ok ((φs.map (Phrase.filled vars objects)).map tree), l)
  | [], _ => rfl
  | φ :: φs, hφs => by
    obtain ⟨hφ, hφs⟩ := List.forall_mem_cons.1 hφs
    rw [List.map_cons, substituteEach, Work.perform_bind_ok (perform_substitute h hφ l),
      Work.perform_bind_ok (perform_substituteEach l hφs)]
    rfl

end
end Phrase
end Epistemic
