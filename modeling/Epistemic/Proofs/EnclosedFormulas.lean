import Epistemic.Proofs.EffectNesting
import Epistemic.Proofs.OperatorAgents
/-!
# Formulas in a list of their own

Behind an operator a formula goes on in the same list, or stands in a list of its own.  The two are written by different
rules: the first with the operators that are open so far, the second apart, and its items are then passed over.  The
text is the same, and so is the fault if there is one, in both languages and whatever the formula is made of
(`formula_enclosed_eq`).
-/
namespace Epistemic

namespace MAp

/-- **Operators that are open before a formula are closed behind it**, and make no other difference to it. -/
theorem formulaFrom_opened (ts : List Tree) : ∀ skip opened,
    formulaFrom skip opened ts = (formulaFrom skip 0 ts).map (· ++ closings opened) := by
  induction ts with
  | nil =>
    intro skip opened
    simp only [formulaFrom, Except.map, ← closings_add, Nat.zero_add]
  | cons t ts ih =>
    intro skip opened
    cases skip with
    | succ skip =>
      rw [formulaFrom, formulaFrom]
      exact ih skip opened
    | zero =>
      rw [formulaFrom, formulaFrom]
      rcases operator? t with e | _ | op
      · rfl
      · simp only
        rw [ih 0 opened]
        cases formulaFrom 0 0 ts with
        | error e => rfl
        | ok rest => simp [Except.map, String.append_assoc]
      · simp only
        rcases behindOperator ts with e | ⟨text, skip⟩
        · rfl
        · -- the operator itself is closed first
          simp only
          rw [ih skip (opened + 1), ih skip (0 + 1)]
          cases formulaFrom skip 0 ts with
          | error e => rfl
          | ok rest => simp [Except.map, String.append_assoc, Nat.add_comm opened 1, closings_add]

theorem formulaFrom_enclosed {t : Tree} {op : String} (hop : operator? t = .ok (some op)) (opened : Nat) (w : String)
    (rest : List Tree) :
    formulaFrom 0 opened [t, .list (.word w :: rest)] = formulaFrom 0 opened (t :: .word w :: rest) := by
  have hbehind : behindOperator [.list (.word w :: rest)] =
      (formulaFrom 0 0 (.word w :: rest)).map (·, rest.length + 1) := by
    rw [behindOperator, enclosed, List.length_cons]
  rw [formulaFrom_before_word hop, formulaFrom_opened (.word w :: rest), formulaFrom, hop]
  simp only [hbehind]
  cases formulaFrom 0 0 (.word w :: rest) with
  | error e => rfl
  | ok text => simp [Except.map, formulaFrom, String.append_assoc]

end MAp

namespace Pdkb

theorem occurs_map_signChar {c d : Char} (hc : c ≠ '-') (hd : d ≠ '-') {cs : List Char}
    (h : Text.occurs [c, d] cs = true) : Text.occurs [c, d] (cs.map signChar) = true := by
  obtain ⟨a, b, rfl⟩ := Text.occurs_pair_iff.1 h
  refine Text.occurs_pair_iff.2 ⟨a.map signChar, b.map signChar, ?_⟩
  rw [List.map_append, List.map_cons, List.map_cons, signChar, if_neg hc, signChar, if_neg hd]

/-- An operator is one still when its hyphens are written as negations. -/
theorem exists_operator?_sign {w : String} (h : Literals.isOperator (.word w) = true) (keep : Bool) :
    ∃ t op, sign keep (.word w) = .ok t ∧ operator? t = .ok (some op) := by
  have hword : ∀ {u : String}, Literals.isOperator (.word u) = true → ∃ op, operator? (.word u) = .ok (some op) := by
    intro u hu
    rw [Literals.isOperator, Bool.or_comm] at hu
    exact ⟨_, by rw [operator?, if_pos hu]⟩
  cases keep with
  | true =>
    obtain ⟨op, hop⟩ := hword h
    exact ⟨.word w, op, by simp [sign], hop⟩
  | false =>
    have hsigned : Literals.isOperator (.word (String.ofList (w.toList.map signChar))) = true := by
      simp only [Literals.isOperator, Tree.hasBelief, Tree.hasCommonBelief, Tree.mentions, Bool.or_eq_true,
        String.toList_ofList] at h ⊢
      exact h.imp (occurs_map_signChar (by decide) (by decide)) (occurs_map_signChar (by decide) (by decide))
    obtain ⟨op, hop⟩ := hword hsigned
    exact ⟨_, op, sign_word w, hop⟩

theorem formulaFrom_before_word {keep : Bool} {t t' : Tree} {op : String} (hsign : sign keep t = .ok t')
    (hop : operator? t' = .ok (some op)) (behind : Bool) (w : String) (rest : List Tree) :
    formulaFrom keep 0 0 behind (t :: .word w :: rest) =
      (formulaFrom keep 0 0 true (.word w :: rest)).map (op ++ ·) := by
  rw [formulaFrom, hsign]
  simp [hop, behindOperator, enclosed]

theorem formulaFrom_enclosed {keep : Bool} {t t' : Tree} {op : String} (hsign : sign keep t = .ok t')
    (hop : operator? t' = .ok (some op)) (behind : Bool) (w : String) (rest : List Tree) :
    formulaFrom keep 0 0 behind [t, .list (.word w :: rest)] = formulaFrom keep 0 0 behind (t :: .word w :: rest) := by
  have hbehind : behindOperator keep [.list (.word w :: rest)] =
      (formulaFrom keep 0 0 true (.word w :: rest)).map (·, rest.length + 1) := by
    rw [behindOperator, enclosed, List.length_cons]
  rw [formulaFrom_before_word hsign hop, formulaFrom, hsign]
  simp only [hop, hbehind]
  cases formulaFrom keep 0 0 true (.word w :: rest) with
  | error e => rfl
  | ok text => simp [Except.map, formulaFrom, closings]

end Pdkb

/-- **A formula is written alike behind an operator and in a list of its own behind it**, in mAp and in PDKB, with
hyphens kept or not and behind another operator or not.  The formula begins with a word and is arbitrary otherwise; if
it cannot be written, both stop with the same fault. -/
theorem formula_enclosed_eq (op : String) (hop : Literals.isOperator (.word op) = true) (first : String)
    (rest : List Tree) :
    MAp.formula (.list (.word op :: .word first :: rest)) =
      MAp.formula (.list [.word op, .list (.word first :: rest)]) ∧
    ∀ keep behind, Pdkb.formulaWith keep behind (.list (.word op :: .word first :: rest)) =
      Pdkb.formulaWith keep behind (.list [.word op, .list (.word first :: rest)]) := by
  constructor
  · obtain ⟨text, htext⟩ := MAp.exists_operator? hop
    exact (MAp.formulaFrom_enclosed htext 0 first rest).symm
  · intro keep behind
    obtain ⟨signed, text, hsigned, htext⟩ := Pdkb.exists_operator?_sign hop keep
    exact (Pdkb.formulaFrom_enclosed hsigned htext behind first rest).symm

/-- A belief of two agents in a formula of which the last operator has nothing behind it. -/
theorem formula_enclosed_eq_dangling : Literals.isOperator (.word "C(a,-b,") = true ∧
    MAp.formula (.list [.word "C(a,-b,", .word "B(c,", .list [.word "-p", .word "x"], .word "q", .word "B(d,"]) =
      MAp.formula (.list [.word "C(a,-b,",
        .list [.word "B(c,", .list [.word "-p", .word "x"], .word "q", .word "B(d,"]]) ∧
    ∀ keep behind, Pdkb.formulaWith keep behind
        (.list [.word "C(a,-b,", .word "B(c,", .list [.word "-p", .word "x"], .word "q", .word "B(d,"]) =
      Pdkb.formulaWith keep behind (.list [.word "C(a,-b,",
        .list [.word "B(c,", .list [.word "-p", .word "x"], .word "q", .word "B(d,"]]) :=
  ⟨by decide, formula_enclosed_eq "C(a,-b," (by decide) "B(c," [.list [.word "-p", .word "x"], .word "q", .word "B(d,"]⟩

end Epistemic
