import Epistemic.Proofs.Inclusion
import Epistemic.Proofs.Words
/-!
# The letters of a text

The rules of writing take characters away and put in none (`Source.normalize_sublist`), and a text in lower case has no
capital letters (`Text.isUpper_of_mem_lower`).  So the only capital letters in the words that a text is read into are
those that mark operators (`Source.capitals_of_scan`).
-/
namespace Epistemic

/-! ## Lower case -/

namespace Text

theorem isUpper_iff {c : Char} : c.isUpper = true ↔ 65 ≤ c.toNat ∧ c.toNat ≤ 90 := by
  have hrange : c.isUpper = decide ('A'.val ≤ c.val ∧ c.val ≤ 'Z'.val) := rfl
  rw [hrange, decide_eq_true_iff, UInt32.le_iff_toNat_le, UInt32.le_iff_toNat_le, Char.toNat_val]
  rfl

theorem isUpper_toLower {c : Char} (h : c.toNat < 128) : c.toLower.isUpper = false := by
  have hall : ∀ n < 128, (Char.ofNat n).toLower.isUpper = false := by decide
  have hc := hall c.toNat h
  rwa [Char.ofNat_toNat] at hc

theorem isUpper_ofNat {n : Nat} (h : 90 < n) : (Char.ofNat n).isUpper = false := by
  rw [Bool.eq_false_iff, ne_eq, isUpper_iff]
  by_cases hvalid : n.isValidChar
  · have hn : (Char.ofNat n).toNat = n := by
      rw [Char.ofNat, dif_pos hvalid]
      rfl
    omega
  · rw [Char.ofNat, dif_neg hvalid]
    decide

theorem isUpper_of_mem_lowerChar {c d : Char} (h : d ∈ lowerChar c) : d.isUpper = false := by
  unfold lowerChar at h
  split at h
  · rename_i hc
    cases List.mem_singleton.1 h
    exact isUpper_toLower hc
  · rename_i hc
    split at h
    · have hall : ['i', Char.ofNat 0x307].all (!·.isUpper) = true := by decide
      simpa using List.all_eq_true.1 hall d h
    · split at h
      · rename_i r hr
        cases List.mem_singleton.1 h
        have hall : caseRows.all (fun r => 90 < r.first + r.offset) = true := by decide
        have hrow := List.all_eq_true.1 hall r (List.mem_of_find?_eq_some hr)
        have hcovers := List.find?_some hr
        refine isUpper_ofNat ?_
        simp only [CaseRow.covers, Bool.and_eq_true, decide_eq_true_eq] at hrow hcovers
        omega
      · cases List.mem_singleton.1 h
        rw [Bool.eq_false_iff, ne_eq, isUpper_iff]
        omega

theorem isUpper_of_mem_lowerFrom {d : Char} {cs : List Char} {inWord : Bool} (h : d ∈ lowerFrom inWord cs) :
    d.isUpper = false := by
  induction cs generalizing inWord with
  | nil => cases h
  | cons c cs ih =>
    rcases List.mem_append.1 h with h | h
    · split at h
      · have hall : ['ς', 'σ'].all (!·.isUpper) = true := by decide
        have hmem : d ∈ ['ς', 'σ'] := by
          split at h <;> simp [List.mem_singleton.1 h]
        simpa using List.all_eq_true.1 hall d hmem
      · exact isUpper_of_mem_lowerChar h
    · exact ih h

/-- **A text in lower case has no capital letters.** -/
theorem isUpper_of_mem_lower {d : Char} {cs : List Char} (h : d ∈ lower cs) : d.isUpper = false :=
  isUpper_of_mem_lowerFrom h

end Text

namespace Source

/-! ## The rules of writing -/

/-- A rule that only takes characters away. -/
def Rule.Deletes (rule : Rule) : Prop :=
  ∀ c cs new rest, rule (c :: cs) = some (new, rest) → (new ++ rest).Sublist (c :: cs)

theorem agentType_deletes : Rule.Deletes agentType := by
  intro c cs new rest h
  obtain ⟨before, blanks, -, -, -, hcs, rfl⟩ := agentType_some h
  rw [hcs, List.cons_append, List.append_assoc, ← List.append_assoc _ blanks]
  exact .cons_cons '[' (.append_left (List.sublist_append_right _ _) before)

theorem doubleParentheses_deletes : Rule.Deletes doubleParentheses := by
  intro c cs new rest h
  obtain ⟨b₁, b₂, -, -, -, -, hcs⟩ := doubleParentheses_some h
  rw [hcs]
  have hrest : rest.Sublist (')' :: (b₂ ++ ')' :: rest)) :=
    .cons ')' ((List.sublist_cons_self ')' rest).trans (List.sublist_append_right b₂ _))
  exact .cons '(' (((hrest.append_left new).cons '(').trans (List.sublist_append_right b₁ _))

theorem operatorParentheses_deletes : Rule.Deletes operatorParentheses := by
  intro c cs new rest h
  obtain ⟨before, inner, -, -, -, -, -, hcs, rfl⟩ := operatorParentheses_some h
  rw [hcs, List.cons_append, List.append_assoc]
  refine .cons_cons '[' (.append_left (.cons_cons ']' (.cons '(' ?_)) before)
  exact .append_left (List.sublist_cons_self ')' rest) inner

theorem includeDirective_deletes : Rule.Deletes includeDirective := by
  intro c cs new rest h
  have hrest := includeDirective_consumes c cs new rest h
  obtain ⟨⟨body, rest'⟩, -, heq⟩ := Option.map_eq_some_iff.1 h
  obtain ⟨rfl, rfl⟩ := Prod.mk.inj heq
  exact hrest.sublist.cons c

theorem Passes.sublist {rule : Rule} (hrule : rule.Deletes) {cs after : List Char} {n : Nat}
    (h : Passes rule cs after n) : after.Sublist cs := by
  induction h with
  | nil => exact .slnil
  | keep _ _ ih => exact ih.cons_cons _
  | replace hr _ ih => exact (ih.append_left _).trans (hrule _ _ _ _ hr)

theorem pass_sublist {rule : Rule} (hconsumes : rule.Consumes) (hrule : rule.Deletes) (cs : List Char) :
    (pass rule cs).1.Sublist cs :=
  (passes_pass hconsumes cs).sublist hrule

theorem exhaust_sublist {rule : Rule} (hconsumes : rule.Consumes) (hrule : rule.Deletes) (cs : List Char) :
    (exhaust rule cs).Sublist cs :=
  exhaustWithin_induction (·.Sublist cs) (fun cs' h => (pass_sublist hconsumes hrule cs').trans h) _ cs (.refl cs)

/-- **Undoing the rules of writing only takes characters away.** -/
theorem normalize_sublist (dialect : Dialect) (cs : List Char) : (normalize dialect cs).Sublist cs := by
  have hagents := pass_sublist agentType_consumes agentType_deletes cs
  unfold normalize
  refine (exhaust_sublist operatorParentheses_consumes operatorParentheses_deletes _).trans
    ((exhaust_sublist doubleParentheses_consumes doubleParentheses_deletes _).trans ?_)
  cases dialect with
  | levels => exact hagents
  | groups => exact (pass_sublist includeDirective_consumes includeDirective_deletes _).trans hagents

/-! ## Words -/

theorem mem_of_mem_tokensFrom {w : String} {c : Char} (hc : c ∈ w.toList) {cs letters : List Char}
    (h : .word w ∈ tokensFrom letters cs) : c ∈ letters ∨ c ∈ cs := by
  have hfinished : ∀ {letters : List Char}, .word w ∈ finishedWord letters → c ∈ letters := by
    intro letters h
    unfold finishedWord at h
    split at h
    · cases h
    · cases List.mem_singleton.1 h
      simpa using hc
  induction cs generalizing letters with
  | nil => exact .inl (hfinished h)
  | cons d cs ih =>
    unfold tokensFrom at h
    split at h
    · rename_i t hmark
      rcases List.mem_append.1 h with h | h
      · exact .inl (hfinished h)
      · rcases List.mem_cons.1 h with rfl | h
        · exact absurd hmark (mark?_ne_word d w)
        · exact .inr (List.mem_cons_of_mem d ((ih h).resolve_left List.not_mem_nil))
    · split at h
      · rcases List.mem_append.1 h with h | h
        · exact .inl (hfinished h)
        · exact .inr (List.mem_cons_of_mem d ((ih h).resolve_left List.not_mem_nil))
      · rcases ih h with h | h
        · exact (List.mem_cons.1 h).elim (fun heq => .inr (heq ▸ List.mem_cons_self)) .inl
        · exact .inr (List.mem_cons_of_mem d h)

/-- A word whose only capital letters are those that mark operators. -/
def HasMarkCapitals (w : String) : Prop := ∀ c ∈ w.toList, c.isUpper = true → c = 'B' ∨ c = 'C'

theorem HasMarkCapitals.append {v w : String} (hv : HasMarkCapitals v) (hw : HasMarkCapitals w) :
    HasMarkCapitals (v ++ w) := by
  unfold HasMarkCapitals
  rw [String.toList_append, List.forall_mem_append]
  exact ⟨hv, hw⟩

theorem tokenClass_hasMarkCapitals : TokenClass HasMarkCapitals HasMarkCapitals HasMarkCapitals where
  comma := by simp [HasMarkCapitals]
  word _ hw := hw
  empty := by simp [HasMarkCapitals]
  belief := by simp [HasMarkCapitals]
  append _ _ := .append
  finish operator several h := by
    have hcomma : HasMarkCapitals (operator ++ ",") := h.append (by simp [HasMarkCapitals])
    have hfinished : HasMarkCapitals (Nest.finished operator several) := by
      cases several with
      | false => exact hcomma
      | true =>
        intro c hc
        rw [Nest.finished, if_pos rfl, String.toList_ofList] at hc
        rcases Text.mem_of_mem_replaceFrom hc with hc | hc
        · have hmark : ∀ c ∈ ['C', '('], c.isUpper = true → c = 'B' ∨ c = 'C' := by simp
          exact hmark c hc
        · exact hcomma c hc
    exact ⟨hfinished, hfinished⟩

/-- **The words that a text is read into have no capital letters but those that mark operators.** -/
theorem capitals_of_scan {dialect : Dialect} {text : String} {t : Tree} (h : scan dialect text = .ok t) :
    t.AllWords HasMarkCapitals := by
  refine tokenClass_hasMarkCapitals.of_nest (fun w hw c hc hupper => ?_) h
  have hplain : c ∈ plain (unifyNewlines text.toList) :=
    (normalize_sublist dialect _).subset ((mem_of_mem_tokensFrom hc hw).resolve_left List.not_mem_nil)
  rw [Text.isUpper_of_mem_lower hplain] at hupper
  cases hupper

end Source
end Epistemic
