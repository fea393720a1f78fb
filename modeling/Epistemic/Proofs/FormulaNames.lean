import Epistemic.Proofs.Phrases
/-!
# Formulas that have one text

Formulas of operators before an atom are written with marks that stand in no name.  The first mark of a text says which
operator it begins with, the next one ends the agents of that operator, and what is left is the text of the formula
behind it.  So a text is that of one formula only (`MAp.formula_eq_iff`).
-/
namespace Epistemic

open MAp (operatorText)

/-- A name in a formula: it is not empty, and no mark of a written formula stands in it. -/
structure IsFormulaName (w : String) : Prop where
  nonempty : w ≠ ""
  unmarked : ∀ c ∈ ['_', ',', '(', ')', '[', ']'], c ∉ w.toList

instance (w : String) : Decidable (IsFormulaName w) :=
  decidable_of_iff (w ≠ "" ∧ ['_', ',', '(', ')', '[', ']'].all (!w.toList.contains ·) = true)
    ⟨fun h => ⟨h.1, by simpa using h.2⟩, fun h => ⟨h.nonempty, by simpa using h.unmarked⟩⟩

/-- One or more names. -/
def AreFormulaNames (ws : List String) : Prop := ws ≠ [] ∧ ∀ w ∈ ws, IsFormulaName w

instance (ws : List String) : Decidable (AreFormulaNames ws) :=
  inferInstanceAs (Decidable (ws ≠ [] ∧ ∀ w ∈ ws, IsFormulaName w))

/-- Operators, each of one or more agents, before the words of an atom. -/
structure BeliefFormula where
  operators : List (List String)
  atom : List String
  agents : ∀ op ∈ operators, AreFormulaNames op
  words : AreFormulaNames atom

namespace BeliefFormula

/-- A formula as it is read: a word for each operator, and the words of the atom. -/
def tree (F : BeliefFormula) : Tree := .list (F.operators.map operatorTree ++ F.atom.map .word)

def phrase (operators : List (List String)) (atom : List String) : Phrase := operators.foldr .believed (.atom atom)

/-- The text of a formula: its operators around each other and around the words of the atom. -/
def text (F : BeliefFormula) : String := (phrase F.operators F.atom).text

theorem items_phrase (operators : List (List String)) (atom : List String) :
    (phrase operators atom).items = operators.map operatorTree ++ atom.map .word := by
  induction operators with
  | nil => rfl
  | cons op operators ih =>
    show operatorTree op :: (phrase operators atom).items = _
    rw [ih]
    rfl

theorem isClear_phrase {operators : List (List String)} {atom : List String}
    (hops : ∀ op ∈ operators, AreFormulaNames op)
    (hatom : AreFormulaNames atom) : (phrase operators atom).IsClear := by
  induction operators with
  | nil => exact ⟨hatom.1, fun w hw => (hatom.2 w hw).unmarked '(' (by decide)⟩
  | cons op operators ih =>
    obtain ⟨hop, hops⟩ := List.forall_mem_cons.1 hops
    exact ⟨fun a ha => (hop.2 a ha).unmarked '(' (by decide), ih hops⟩

/-! ## Unique readability -/

theorem append_cons_inj {c : Char} {xs xs' ys ys' : List Char} (hxs : c ∉ xs) (hxs' : c ∉ xs')
    (h : xs ++ c :: ys = xs' ++ c :: ys') : xs = xs' ∧ ys = ys' := by
  have hsplit := congrArg (Text.splitFirst? [c]) h
  rw [Text.splitFirst?_singleton hxs, Text.splitFirst?_singleton hxs'] at hsplit
  exact Prod.mk.inj (Option.some.inj hsplit)

theorem intercalate_inj {c : Char} {ws us : List String} (hws : ws ≠ [] ∧ ∀ w ∈ ws, c ∉ w.toList)
    (hus : us ≠ [] ∧ ∀ u ∈ us, c ∉ u.toList)
    (h : [c].intercalate (ws.map String.toList) = [c].intercalate (us.map String.toList)) : ws = us := by
  have hsplit : ∀ {vs : List String}, vs ≠ [] ∧ (∀ v ∈ vs, c ∉ v.toList) →
      Text.splitOn (· == c) ([c].intercalate (vs.map String.toList)) = vs.map String.toList := by
    intro vs hvs
    refine Text.splitOn_intercalate (mt List.map_eq_nil_iff.1 hvs.1) fun l hl => ?_
    obtain ⟨v, hv, rfl⟩ := List.mem_map.1 hl
    exact hvs.2 v hv
  have hlists := congrArg (Text.splitOn (· == c)) h
  rw [hsplit hws, hsplit hus] at hlists
  exact List.map_injective_iff.2 (fun _ _ => String.toList_inj.1) hlists

theorem toList_operatorText (op : List String) : (operatorText op).toList =
    if op.length ≤ 1 then 'B' :: '(' :: ([','].intercalate (op.map String.toList) ++ [','])
    else 'C' :: '(' :: '[' :: ([','].intercalate (op.map String.toList) ++ [']', ',']) := by
  unfold operatorText
  by_cases hone : op.length ≤ 1
  · rw [if_pos hone, if_pos hone, toList_operatorName, if_pos hone]
  · rw [if_neg hone, if_neg hone, String.toList_append, String.toList_append, String.toList_intercalate]
    rfl

/-- **An operator can be told from what stands behind it.** -/
theorem operatorText_append_inj {op op' : List String} (hop : AreFormulaNames op) (hop' : AreFormulaNames op')
    {t t' : List Char} (h : (operatorText op).toList ++ t = (operatorText op').toList ++ t') : op = op' ∧ t = t' := by
  have hsingle : ∀ {as : List String}, as ≠ [] → as.length ≤ 1 → ∃ a, as = [a] := fun hne hle =>
    List.length_eq_one_iff.1 (Nat.le_antisymm hle (List.length_pos_iff.2 hne))
  rw [toList_operatorText, toList_operatorText] at h
  by_cases hone : op.length ≤ 1
  · by_cases hone' : op'.length ≤ 1
    · obtain ⟨a, rfl⟩ := hsingle hop.1 hone
      obtain ⟨a', rfl⟩ := hsingle hop'.1 hone'
      simp only [hone, hone', if_true, List.map_singleton, List.intercalate_singleton, List.cons_append,
        List.append_assoc, List.cons.injEq, true_and, List.nil_append] at h
      -- the name of one agent ends at the comma
      obtain ⟨ha, ht⟩ := append_cons_inj ((hop.2 a List.mem_cons_self).unmarked ',' (by decide))
        ((hop'.2 a' List.mem_cons_self).unmarked ',' (by decide)) h
      exact ⟨by rw [String.toList_inj.1 ha], ht⟩
    · rw [if_pos hone, if_neg hone'] at h
      exact absurd (List.cons.inj h).1 (by decide)
  · by_cases hone' : op'.length ≤ 1
    · rw [if_neg hone, if_pos hone'] at h
      exact absurd (List.cons.inj h).1 (by decide)
    · simp only [if_neg hone, if_neg hone', List.cons_append, List.append_assoc, List.cons.injEq, true_and,
        List.nil_append] at h
      -- the names of several agents end at the bracket
      have hbracket : ∀ {as : List String}, (∀ a ∈ as, IsFormulaName a) →
          ']' ∉ [','].intercalate (as.map String.toList) := fun has =>
        Source.not_mem_intercalate_toList (by decide) fun a ha => (has a ha).unmarked ']' (by decide)
      obtain ⟨hagents, ht⟩ := append_cons_inj (hbracket hop.2) (hbracket hop'.2) h
      refine ⟨intercalate_inj ⟨hop.1, fun a ha => ?_⟩ ⟨hop'.1, fun a ha => ?_⟩ hagents, (List.cons.inj ht).2⟩
      · exact (hop.2 a ha).unmarked ',' (by decide)
      · exact (hop'.2 a ha).unmarked ',' (by decide)

theorem parenthesis_mem_operatorText (op : List String) : '(' ∈ (operatorText op).toList := by
  rw [toList_operatorText]
  split <;> simp

theorem toList_text_cons (op : List String) (operators : List (List String)) (atom : List String) :
    (phrase (op :: operators) atom).text.toList =
      (operatorText op).toList ++ ((phrase operators atom).text.toList ++ [')']) := by
  show (operatorText op ++ (phrase operators atom).text ++ ")").toList = _
  rw [String.toList_append, String.toList_append, List.append_assoc]
  rfl

theorem toList_text_nil (atom : List String) :
    (phrase [] atom).text.toList = ['_'].intercalate (atom.map String.toList) := String.toList_intercalate

/-- **Formulas with the same text have the same operators and the same atom.** -/
theorem text_inj : ∀ {operators operators' : List (List String)} {atom atom' : List String},
    (∀ op ∈ operators, AreFormulaNames op) → (∀ op ∈ operators', AreFormulaNames op) →
    AreFormulaNames atom → AreFormulaNames atom' →
    (phrase operators atom).text.toList = (phrase operators' atom').text.toList →
      operators = operators' ∧ atom = atom' := by
  have hopen : ∀ {op : List String} {operators : List (List String)} {atom atom' : List String},
      (∀ w ∈ atom, IsFormulaName w) → (phrase [] atom).text.toList ≠ (phrase (op :: operators) atom').text.toList := by
    intro op operators atom atom' hatom h
    have hmem : '(' ∈ (phrase [] atom).text.toList := by
      rw [h, toList_text_cons]
      exact List.mem_append_left _ (parenthesis_mem_operatorText op)
    rw [toList_text_nil] at hmem
    exact Source.not_mem_intercalate_toList (by decide) (fun w hw => (hatom w hw).unmarked '(' (by decide)) hmem
  intro operators
  induction operators with
  | nil =>
    intro operators' atom atom' _ _ hatom hatom' h
    cases operators' with
    | nil =>
      rw [toList_text_nil, toList_text_nil] at h
      refine ⟨rfl, intercalate_inj ⟨hatom.1, fun w hw => ?_⟩ ⟨hatom'.1, fun w hw => ?_⟩ h⟩
      · exact (hatom.2 w hw).unmarked '_' (by decide)
      · exact (hatom'.2 w hw).unmarked '_' (by decide)
    | cons op' operators' => exact absurd h (hopen hatom.2)
  | cons op operators ih =>
    intro operators' atom atom' hops hops' hatom hatom' h
    cases operators' with
    | nil => exact absurd h.symm (hopen hatom'.2)
    | cons op' operators' =>
      obtain ⟨hop, hinner⟩ := List.forall_mem_cons.1 hops
      obtain ⟨hop', hinner'⟩ := List.forall_mem_cons.1 hops'
      rw [toList_text_cons, toList_text_cons] at h
      obtain ⟨rfl, hrest⟩ := operatorText_append_inj hop hop' h
      obtain ⟨rfl, rfl⟩ := ih hinner hinner' hatom hatom' (List.append_cancel_right hrest)
      exact ⟨rfl, rfl⟩

theorem count_closing_text {operators : List (List String)} {atom : List String}
    (hops : ∀ op ∈ operators, AreFormulaNames op) (hatom : ∀ w ∈ atom, IsFormulaName w) :
    (phrase operators atom).text.toList.count ')' = operators.length := by
  induction operators with
  | nil =>
    rw [toList_text_nil]
    exact List.count_eq_zero.2 (Source.not_mem_intercalate_toList (by decide)
      fun w hw => (hatom w hw).unmarked ')' (by decide))
  | cons op operators ih =>
    obtain ⟨hop, hops⟩ := List.forall_mem_cons.1 hops
    have hagents : ')' ∉ [','].intercalate (op.map String.toList) :=
      Source.not_mem_intercalate_toList (by decide) fun a ha => (hop.2 a ha).unmarked ')' (by decide)
    have hnone : (operatorText op).toList.count ')' = 0 := by
      rw [toList_operatorText]
      split <;> simp [List.count_append, List.count_eq_zero.2 hagents]
    rw [toList_text_cons, List.count_append, List.count_append, hnone, ih hops, List.length_cons]
    simp

end BeliefFormula

/-- **A formula is written as its operators around its atom, and no other formula has its text.**  As many parentheses
are closed as there are operators. -/
theorem MAp.formula_eq_iff (F G : BeliefFormula) :
    formula F.tree = .ok F.text ∧ F.text.toList.count ')' = F.operators.length ∧
    (formula F.tree = formula G.tree ↔ F = G) := by
  have hformula : ∀ F : BeliefFormula, formula F.tree = .ok F.text := by
    intro F
    rw [BeliefFormula.tree, ← BeliefFormula.items_phrase]
    exact Phrase.formula_items (BeliefFormula.isClear_phrase F.agents F.words)
  refine ⟨hformula F, BeliefFormula.count_closing_text F.agents F.words.2, fun h => ?_, fun h => by rw [h]⟩
  rw [hformula F, hformula G, Except.ok.injEq] at h
  obtain ⟨hops, hatom⟩ := BeliefFormula.text_inj F.agents G.agents F.words G.words (congrArg String.toList h)
  obtain ⟨operators, atom, _, _⟩ := F
  obtain ⟨operators', atom', _, _⟩ := G
  obtain rfl : operators = operators' := hops
  obtain rfl : atom = atom' := hatom
  rfl

example : BeliefFormula.text ⟨[["a"], ["b", "c"]], ["has", "d"], by decide, by decide⟩ = "B(a,C([b,c],has_d))" := by
  decide

end Epistemic
