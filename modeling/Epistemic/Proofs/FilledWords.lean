import Epistemic.Proofs.ClearedGuards
import Epistemic.Proofs.Exchanges
import Epistemic.Proofs.OperatorAgents
import Epistemic.Proofs.UsedFluents
/-!
# Filling in formulas without operators

A formula that is made of words, none of them an operator, is filled in with all objects at once: each variable with the
object of its first place in the list of variables, and any other word stays as it is.  The name of the formula is
recorded if there is no hyphen in it (`substituteEach_words`).
-/
namespace Epistemic

/-! ## Names of formulas -/

namespace Text

/-- A pair that stands around no separator stands on one side of it. -/
theorem occurs_pair_append_cons {c d s : Char} (hc : c ≠ s) (hd : d ≠ s) {ys : List Char} : ∀ {xs : List Char},
    occurs [c, d] (xs ++ s :: ys) = true → occurs [c, d] xs = true ∨ occurs [c, d] ys = true
  | [], h => by
    rw [List.nil_append, occurs, Bool.or_eq_true] at h
    rcases h with h | h
    · simp [hc] at h
    · exact .inr h
  | x :: xs, h => by
    rw [List.cons_append, occurs, Bool.or_eq_true] at h
    rcases h with h | h
    · cases xs with
      | nil => simp [hd] at h
      | cons y xs => exact .inl (by rw [occurs, Bool.or_eq_true]; exact .inl (by simpa using h))
    · refine (occurs_pair_append_cons hc hd h).imp_left fun hxs => ?_
      rw [occurs, hxs, Bool.or_true]

theorem occurs_pair_intercalate {c d s : Char} (hc : c ≠ s) (hd : d ≠ s) : ∀ {ls : List (List Char)},
    occurs [c, d] ([s].intercalate ls) = true → ∃ l ∈ ls, occurs [c, d] l = true
  | [], h => by simp [occurs] at h
  | [l], h => ⟨l, List.mem_singleton_self l, by simpa using h⟩
  | l :: l' :: ls, h => by
    rw [List.intercalate_cons_cons, List.append_assoc, List.singleton_append] at h
    rcases occurs_pair_append_cons hc hd h with h | h
    · exact ⟨l, List.mem_cons_self, h⟩
    · obtain ⟨x, hx, hin⟩ := occurs_pair_intercalate hc hd h
      exact ⟨x, List.mem_cons_of_mem l hx, hin⟩

end Text

theorem isOperator_intercalate {ws : List String} (h : ∀ w ∈ ws, Literals.isOperator (.word w) = false) :
    Literals.isOperator (.word (String.intercalate "_" ws)) = false := by
  have hpair : ∀ c : Char, c ≠ '_' → Text.occurs [c, '('] (String.intercalate "_" ws).toList = true →
      ∃ w ∈ ws, Text.occurs [c, '('] w.toList = true := by
    intro c hc hin
    rw [String.toList_intercalate] at hin
    obtain ⟨l, hl, hin⟩ := Text.occurs_pair_intercalate hc (by decide) hin
    obtain ⟨w, hw, rfl⟩ := List.mem_map.1 hl
    exact ⟨w, hw, hin⟩
  refine Bool.eq_false_iff.2 fun hop => ?_
  rw [Literals.isOperator, Bool.or_eq_true] at hop
  rcases hop with hop | hop
  · obtain ⟨w, hw, hin⟩ := hpair 'B' (by decide) hop
    exact absurd hin (Bool.eq_false_iff.1 (Bool.or_eq_false_iff.1 (h w hw)).1)
  · obtain ⟨w, hw, hin⟩ := hpair 'C' (by decide) hop
    exact absurd hin (Bool.eq_false_iff.1 (Bool.or_eq_false_iff.1 (h w hw)).2)

/-! ## Filling in -/

theorem MAp.formula_words {ws : List String} (h : ∀ w ∈ ws, Literals.isOperator (.word w) = false) :
    formula (.list (ws.map .word)) = .ok (String.intercalate "_" ws) := by
  rw [formula, Tree.items, formulaFrom_words 0 h]
  simp [closings]

open Assignment (ofNames objectFor ExchangesEnd ExchangesEach)

section
variable {vars objects : List String} (hlength : objects.length = vars.length) (hapart : ∀ o ∈ objects, o ∉ vars)
  (hobjects : ∀ o ∈ objects, Literals.isOperator (.word o) = false)

/-- A formula with all its variables filled in at once. -/
def filledAtOnce (vars objects ws : List String) : Tree := .list ((ws.map (objectFor vars objects)).map .word)

include hobjects in
theorem isOperator_objectFor {ws : List String} (hws : ∀ w ∈ ws, Literals.isOperator (.word w) = false) :
    ∀ w ∈ ws.map (objectFor vars objects), Literals.isOperator (.word w) = false := by
  intro u hu
  obtain ⟨w, hw, rfl⟩ := List.mem_map.1 hu
  rcases Assignment.objectFor_eq_or_mem w vars objects with heq | hmem
  · rw [heq]
    exact hws w hw
  · exact hobjects _ hmem

include hlength hapart hobjects

/-- **What a formula without operators is filled in to, and what is recorded of it.** -/
theorem perform_substitute_words {ws : List String} (hws : ∀ w ∈ ws, Literals.isOperator (.word w) = false)
    (recorded : Bool) (known : Fluents) :
    ∃ known', (substitute (ofNames vars objects) recorded (.list (ws.map .word))).perform known =
        (.ok (filledAtOnce vars objects ws), known') ∧
      ∀ n, n ∈ known' ↔ n ∈ known ∨
        recorded = true ∧ MAp.formula (filledAtOnce vars objects ws) = .ok n ∧ '-' ∉ n.toList := by
  have hoperators : ∀ inner : Tree → Work Fluents Tree,
      ((List.range (ws.map Tree.word).length).foldlM ((ofNames vars objects).fillOperator inner)
        (ws.map .word)).perform known = (.ok (ws.map .word), known) := by
    intro inner
    rw [List.length_map, List.range_eq_range']
    exact Assignment.foldlM_fillOperator_words _ _ hws [] known
  have hcommon : ∀ t ∈ ws.map Tree.word, t.hasCommonBelief = false := by
    intro t ht
    obtain ⟨w, hw, rfl⟩ := List.mem_map.1 ht
    exact (Bool.or_eq_false_iff.1 (hws w hw)).2
  have hfill := Assignment.fillItems_names ws hlength hapart
  have hplain : ∀ w ∈ ws.map (objectFor vars objects), Literals.isOperator (.word w) = false :=
    isOperator_objectFor hobjects hws
  have hname : MAp.formula (filledAtOnce vars objects ws) =
      .ok (String.intercalate "_" (ws.map (objectFor vars objects))) := MAp.formula_words hplain
  rw [substitute, substituteWithin, Tree.items, Work.perform_bind_ok (hoperators _),
    Assignment.foldlM_collapseOperator hcommon, Work.perform_bind_ok (Work.perform_ofExcept _ known),
    ofNames, hfill, Work.perform_bind_ok (Work.perform_ofExcept _ known), ← List.map_map]
  cases recorded with
  | false => exact ⟨known, rfl, by simp⟩
  | true =>
    have hrecord := perform_recordFluent hname known
    refine ⟨_, (Work.perform_bind_ok hrecord).trans rfl, fun n => ?_⟩
    have hfluent := isFluentName_iff (isOperator_intercalate hplain)
    by_cases hhyphen : '-' ∈ (String.intercalate "_" (ws.map (objectFor vars objects))).toList
    · rw [if_neg (mt hfluent.1 (not_not_intro hhyphen)), hname]
      refine ⟨.inl, fun h => h.resolve_right ?_⟩
      rintro ⟨-, heq, hn⟩
      exact hn (Except.ok.inj heq ▸ hhyphen)
    · rw [if_pos (hfluent.2 hhyphen), hname, List.mem_cons]
      constructor
      · rintro (rfl | hn)
        · exact .inr ⟨rfl, rfl, hhyphen⟩
        · exact .inl hn
      · rintro (hn | ⟨-, heq, -⟩)
        · exact .inr hn
        · exact .inl (Except.ok.inj heq).symm

theorem perform_substituteEach_words (recorded : Bool) : ∀ {group : List (List String)} (known : Fluents),
    (∀ ws ∈ group, ∀ w ∈ ws, Literals.isOperator (.word w) = false) →
    ∃ known', (substituteEach (ofNames vars objects) recorded
      (group.map fun ws => .list (ws.map .word))).perform known =
        (.ok (group.map (filledAtOnce vars objects)), known') ∧
      ∀ n, n ∈ known' ↔ n ∈ known ∨ recorded = true ∧
        ∃ p ∈ group.map (filledAtOnce vars objects), MAp.formula p = .ok n ∧ '-' ∉ n.toList
  | [], known, _ => ⟨known, rfl, by simp⟩
  | ws :: group, known, h => by
    obtain ⟨hws, hgroup⟩ := List.forall_mem_cons.1 h
    obtain ⟨mid, hfirst, hmid⟩ := perform_substitute_words hlength hapart hobjects hws recorded known
    obtain ⟨known', hrest, hknown'⟩ := perform_substituteEach_words recorded mid hgroup
    refine ⟨known', ?_, fun n => ?_⟩
    · rw [List.map_cons, substituteEach, Work.perform_bind_ok hfirst, Work.perform_bind_ok hrest]
      rfl
    · rw [hknown', hmid, List.map_cons, List.exists_mem_cons_iff]
      tauto

end

/-- **Formulas without operators are filled in with all objects at once.**  Every word that is a variable is replaced by
the object of its first place among the variables, and any other stays as it is.  The names of the formulas that are
filled in are recorded if there is no hyphen in them.  Each variable in turn is exchanged at its first place until it is
gone; that cannot go on for ever, whatever the items, and it ends with all variables filled in.  The formulas that were
given stay as they are: when a task has been written, every action whose formulas were filled in is the one that was
read, and any other has been given other guards at most. -/
theorem substituteEach_words (vars objects : List String) (hlength : objects.length = vars.length)
    (hapart : ∀ o ∈ objects, o ∉ vars) (group : List (List String))
    (hwords : ∀ ws ∈ objects :: group, ∀ w ∈ ws, Literals.isOperator (.word w) = false) (recorded : Bool)
    (known : Fluents) :
    (∃ known', (substituteEach (ofNames vars objects) recorded
      (group.map fun ws => .list (ws.map .word))).perform known =
        (.ok (group.map (filledAtOnce vars objects)), known') ∧
      ∀ n, n ∈ known' ↔ n ∈ known ∨ recorded = true ∧
        ∃ p ∈ group.map (filledAtOnce vars objects), MAp.formula p = .ok n ∧ '-' ∉ n.toList) ∧
    (∀ v o, (v, o) ∈ vars.zip objects → ∀ items, ExchangesEnd (.word v) (.word o) items) ∧
    (∀ ws ∈ group, ∀ items, ExchangesEach (vars.map .word) (objects.map .word) (ws.map .word) items ↔
      .list items = filledAtOnce vars objects ws) ∧
    ∀ folder s s', (Session.writeMAp folder).perform s = (.ok (), s') →
      ∃ d left, s.task.domain = some d ∧ s'.task.domain = some { d with actions := left } ∧
        List.Forall₂ (fun a b : Action => (a.parameters ≠ [] → b = a) ∧ ∃ guards, b = { a with guards })
          d.actions left := by
  obtain ⟨hobjects, hgroup⟩ := List.forall_mem_cons.1 hwords
  refine ⟨perform_substituteEach_words hlength hapart hobjects recorded known hgroup, fun v o hvo items => ?_,
    fun ws _ items => ?_, fun folder s s' hrun => ?_⟩
  · obtain ⟨hv, ho⟩ := List.of_mem_zip hvo
    refine Assignment.exchangesEnd_iff.2 fun _ heq => ?_
    exact hapart o ho (Tree.word.inj heq ▸ hv)
  · rw [Assignment.exchangesEach_iff (by simpa using hlength), Assignment.fillItems_names ws hlength hapart,
      ← List.map_map, filledAtOnce]
    simp only [Except.ok.injEq, Tree.list.injEq, eq_comm]
  · obtain ⟨d, p, n, q, text, left, hd, -, -, -, hleaves, htask, -⟩ := Session.writeMAp_leaves hrun
    exact ⟨d, left, hd, by rw [htask], hleaves.imp fun _ _ => Draft.Leaves.eq⟩

/-- A variable that is declared twice stands for its first object, and a denied atom is not recorded. -/
theorem substituteEach_words_twice :
    (∃ known, (substituteEach (ofNames ["?x", "?y", "?x"] ["a", "b", "c"]) true
        ([["at", "?x", "?y", "?x"], ["-lit", "?y"]].map fun ws => .list (ws.map .word))).perform [] =
        (.ok [.list [.word "at", .word "a", .word "b", .word "a"], .list [.word "-lit", .word "b"]], known) ∧
      ∀ n, n ∈ known ↔ n = "at_a_b_a") ∧
    (∀ items, ExchangesEnd (.word "?x") (.word "a") items) ∧
    ExchangesEach [.word "?x", .word "?y", .word "?x"] [.word "a", .word "b", .word "c"] [.word "-lit", .word "?y"]
      [.word "-lit", .word "b"] := by
  obtain ⟨⟨known, hrun, hknown⟩, hends, heach, -⟩ :=
    substituteEach_words ["?x", "?y", "?x"] ["a", "b", "c"] rfl (by decide)
    [["at", "?x", "?y", "?x"], ["-lit", "?y"]] (by decide) true []
  refine ⟨⟨known, hrun, fun n => ?_⟩, hends "?x" "a" (by decide), (heach ["-lit", "?y"] (by decide) _).2 rfl⟩
  have hat : MAp.formula (filledAtOnce ["?x", "?y", "?x"] ["a", "b", "c"] ["at", "?x", "?y", "?x"]) = .ok "at_a_b_a" :=
    rfl
  have hlit : MAp.formula (filledAtOnce ["?x", "?y", "?x"] ["a", "b", "c"] ["-lit", "?y"]) = .ok "-lit_b" := rfl
  rw [hknown, List.map_cons, List.map_singleton, List.exists_mem_cons_iff, List.exists_mem_cons_iff, hat, hlit]
  simp only [Except.ok.injEq, List.not_mem_nil, false_and, exists_false, or_false, false_or, true_and]
  constructor
  · rintro (⟨rfl, -⟩ | ⟨rfl, hhyphen⟩)
    · rfl
    · exact absurd hhyphen (by decide)
  · rintro rfl
    exact .inl ⟨rfl, by decide⟩

end Epistemic
