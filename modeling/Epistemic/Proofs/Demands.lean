import Epistemic.Proofs.ClearedGuards
import Epistemic.Proofs.EffectReading
import Epistemic.Proofs.MarkedPhrases
/-!
# Conditions made of beliefs

A demand is what an observer is asked for: a belief that is to hold or not to hold, or several of them joined by `and`.
It is read as a guard of its beliefs, by their signs (`Demand.guard_condition`), and a guard of beliefs is printed with
their texts, those that begin with the belief of one agent first (`MAp.guard_beliefs`).
-/
namespace Epistemic

open Source (IsPlainWord operatorName)

/-! ## Guards of beliefs -/

namespace Phrase

/-- What stands for a belief where nothing is asked for. -/
def blank : Phrase := atom [""]

/-- Whether a belief begins with the operator of one agent. -/
def isOwn : Phrase → Bool
  | atom _ => false
  | believed as _ => as.length ≤ 1
  | enclosed as _ => as.length ≤ 1

/-- Beliefs in the order of printing. -/
def ownFirst (φs : List Phrase) : List Phrase := (φs.filter isOwn).reverse ++ φs.filter (!·.isOwn)

/-- The texts of what is asked to hold, or not to hold. -/
def signedTexts (affirmed : Bool) (φs : List Phrase) : List String :=
  (ownFirst φs).map fun φ => MAp.signText affirmed ++ φ.text

/-- The texts of what is asked to hold, and then of what is asked not to hold. -/
def askedTexts (positive negative : List Phrase) : List String :=
  signedTexts true positive ++ signedTexts false negative

/-- The text of a condition. -/
def conditionText (positive negative : List Phrase) : String :=
  if askedTexts positive negative = [] then "" else " if " ++ String.intercalate ", " (askedTexts positive negative)

/-- A belief of plain words and agents. -/
def IsPlain (φ : Phrase) : Prop := φ.Each IsPlainWord fun as => ∀ a ∈ as, IsPlainWord a

theorem IsPlain.isClear {φ : Phrase} (h : φ.IsPlain) : φ.IsClear :=
  Each.imp h (fun _ hw => hw.not_mem (by decide)) fun _ has a ha => (has a ha).not_mem (by decide)

theorem IsPlain.blank_not_mem {φ : Phrase} (h : φ.IsPlain) : .word "" ∉ φ.items := by
  have hoperator : ∀ as, Tree.word "" ≠ operatorTree as := by
    intro as heq
    have hparen := MAp.parenthesis_mem_operatorName as
    rw [← Tree.word.inj heq] at hparen
    cases hparen
  induction φ with
  | atom ws =>
    intro hmem
    obtain ⟨w, hw, heq⟩ := List.mem_map.1 hmem
    cases heq
    exact (h.2 "" hw).1 rfl
  | believed as φ ih => simp [items, hoperator as, ih h.2]
  | enclosed as φ _ => simp [items, hoperator as]

theorem IsClear.beginsWithBelief {φ : Phrase} (h : φ.IsClear) : MAp.beginsWithBelief φ.tree = φ.isOwn := by
  have hoperator : ∀ {as : List String}, (∀ a ∈ as, '(' ∉ a.toList) →
      (operatorTree as).hasBelief = decide (as.length ≤ 1) := by
    intro as has
    have hagents : '(' ∉ [','].intercalate (as.map String.toList) ++ [','] := by
      rw [List.mem_append, not_or]
      exact ⟨Source.not_mem_intercalate_toList (by decide) has, by decide⟩
    have hmark : ("B(" : String).toList = ['B', '('] := rfl
    rw [operatorTree, Tree.hasBelief, Tree.mentions, toList_operatorName, hmark, MAp.occurs_mark (by decide) hagents]
    by_cases hone : as.length ≤ 1 <;> simp [hone]
  cases φ with
  | atom ws =>
    obtain ⟨w, ws, rfl⟩ := List.exists_cons_of_ne_nil h.1
    exact (Bool.or_eq_false_iff.1 (isOperator_of_not_mem (h.2 w List.mem_cons_self))).1
  | believed as φ => exact hoperator h.1
  | enclosed as φ => exact hoperator h.1

theorem mem_ownFirst {φ : Phrase} {φs : List Phrase} : φ ∈ ownFirst φs ↔ φ ∈ φs := by
  rw [ownFirst, List.mem_append, List.mem_reverse, List.mem_filter, List.mem_filter]
  cases φ.isOwn <;> simp

theorem signedTexts_ne_nil {φs : List Phrase} (h : φs ≠ []) (affirmed : Bool) : signedTexts affirmed φs ≠ [] := by
  obtain ⟨φ, rest, rfl⟩ := List.exists_cons_of_ne_nil h
  exact List.ne_nil_of_mem (List.mem_map.2 ⟨φ, mem_ownFirst.2 List.mem_cons_self, rfl⟩)

end Phrase

namespace MAp

open Phrase (ownFirst signedTexts signedTexts_ne_nil askedTexts conditionText)

variable {φs : List Phrase}

theorem beliefsFirst_trees (hφs : ∀ φ ∈ φs, φ.IsClear) :
    beliefsFirst (φs.map Phrase.tree) = .ok ((ownFirst φs).map Phrase.tree) := by
  have hfull : (φs.map Phrase.tree).any (·.items.isEmpty) = false := by
    refine Bool.eq_false_iff.2 fun hany => ?_
    obtain ⟨c, hc, hempty⟩ := List.any_eq_true.1 hany
    obtain ⟨φ, hφ, rfl⟩ := List.mem_map.1 hc
    obtain ⟨w, rest, hitems⟩ := Phrase.Each.items_eq (hφs φ hφ)
    rw [Phrase.tree, Tree.items, hitems] at hempty
    cases hempty
  have howns : ∀ p : Bool → Bool, (φs.map Phrase.tree).filter (fun c => p (beginsWithBelief c)) =
      (φs.filter fun φ => p φ.isOwn).map Phrase.tree := by
    intro p
    rw [List.filter_map]
    refine congrArg (List.map Phrase.tree) (List.filter_congr fun φ hφ => ?_)
    rw [Function.comp_apply, (hφs φ hφ).beginsWithBelief]
  rw [beliefsFirst, hfull, if_neg (by decide), ownFirst, List.map_append, List.map_reverse]
  exact congrArg Except.ok (congrArg₂ (fun a b => a.reverse ++ b) (howns id) (howns not))

theorem listed_trees (sign : String) (hφs : ∀ φ ∈ φs, φ.IsClear) :
    listed sign false (φs.map Phrase.tree) = (String.intercalate ", " (φs.map fun φ => sign ++ φ.text), none) := by
  induction φs with
  | nil => rfl
  | cons φ φs ih =>
    obtain ⟨hφ, hφs⟩ := List.forall_mem_cons.1 hφs
    rw [List.map_cons, listed, Phrase.tree, Phrase.formula_items hφ]
    simp only [ih hφs]
    cases φs with
    | nil => simp
    | cons ψ φs => simp [String.append_assoc]

theorem tidy_trees (hφs : ∀ φ ∈ φs, φ.IsPlain) : tidy (φs.map Phrase.tree) = (φs.map Phrase.tree, none) := by
  refine tidy_of_full fun c hc => ?_
  obtain ⟨φ, hφ, rfl⟩ := List.mem_map.1 hc
  obtain ⟨w, rest, hitems⟩ := Phrase.Each.items_eq (hφs φ hφ)
  exact ⟨φ.items, rfl, by rw [hitems]; exact List.cons_ne_nil _ _, (hφs φ hφ).blank_not_mem⟩

theorem conditions_trees (hne : φs ≠ []) (hφs : ∀ φ ∈ φs, φ.IsPlain) (positive first : Bool) :
    conditions positive first (φs.map Phrase.tree) =
      ⟨(if first then " if " else ", ") ++ String.intercalate ", " (signedTexts positive φs),
        φs.map Phrase.tree, .ok first⟩ := by
  have hclear : ∀ φ ∈ φs, φ.IsClear := fun φ hφ => (hφs φ hφ).isClear
  have hlisted : listedInOrder (signText positive) false (φs.map Phrase.tree) =
      (String.intercalate ", " (signedTexts positive φs), none) := by
    rw [listedInOrder, beliefsFirst_trees hclear]
    exact listed_trees _ fun φ hφ => hclear φ (Phrase.mem_ownFirst.1 hφ)
  obtain ⟨φ, rest, rfl⟩ := List.exists_cons_of_ne_nil hne
  have htidy := tidy_trees hφs
  rw [List.map_cons] at htidy hlisted ⊢
  simp only [conditions, htidy, hlisted]

/-- Conditions that are beliefs, or none as it is written out. -/
def Lists (cs : List Tree) (φs : List Phrase) : Prop := cs = φs.map Phrase.tree ∨ φs = [] ∧ cs = blankConditions

theorem Lists.areNone {cs : List Tree} (h : Lists cs []) : AreNone cs := by
  rcases h with rfl | ⟨-, rfl⟩
  · exact .inr rfl
  · exact .inl rfl

theorem Lists.of_ne_nil {cs : List Tree} (h : Lists cs φs) (hne : φs ≠ []) : cs = φs.map Phrase.tree :=
  h.resolve_right fun hnone => hne hnone.1

/-- **A guard of beliefs is printed with their texts.** -/
theorem guard_beliefs {g : Guard} {positive negative : List Phrase} (hpos : Lists g.positive positive)
    (hneg : Lists g.negative negative) (hplain : ∀ φ ∈ positive ++ negative, φ.IsPlain) :
    ∃ left printed, guard g = ⟨conditionText positive negative, left, .ok printed⟩ := by
  obtain ⟨hplainPos, hplainNeg⟩ := List.forall_mem_append.1 hplain
  unfold guard printBoth conditionText askedTexts
  by_cases hp : positive = []
  · subst hp
    by_cases hn : negative = []
    · subst hn
      refine ⟨⟨[], []⟩, false, ?_⟩
      simp only [conditions_none hpos.areNone, conditions_none hneg.areNone]
      rfl
    · refine ⟨⟨[], negative.map Phrase.tree⟩, true, ?_⟩
      have hnone : signedTexts true [] ++ signedTexts false negative = signedTexts false negative := rfl
      simp only [conditions_none hpos.areNone, hneg.of_ne_nil hn, conditions_trees hn hplainNeg, hnone,
        if_neg (signedTexts_ne_nil hn false), String.empty_append]
      rfl
  · have htexts := signedTexts_ne_nil hp true
    by_cases hn : negative = []
    · subst hn
      refine ⟨⟨positive.map Phrase.tree, []⟩, true, ?_⟩
      have hnone : signedTexts true positive ++ signedTexts false [] = signedTexts true positive := List.append_nil _
      simp only [conditions_none hneg.areNone, hpos.of_ne_nil hp, conditions_trees hp hplainPos, hnone,
        if_neg htexts, String.append_empty]
      rfl
    · refine ⟨⟨positive.map Phrase.tree, negative.map Phrase.tree⟩, true, ?_⟩
      simp only [hpos.of_ne_nil hp, hneg.of_ne_nil hn, conditions_trees hp hplainPos, conditions_trees hn hplainNeg,
        if_neg (List.append_ne_nil_of_left_ne_nil htexts _),
        String.intercalate_append_of_ne_nil htexts (signedTexts_ne_nil hn false)]
      simp [Except.map, String.append_assoc]

end MAp

/-! ## Demands -/

/-- A belief that is to hold or not to hold, and that does not begin with a keyword. -/
structure Requirement where
  affirmed : Bool
  belief : Phrase
  headed : ∃ w rest, belief.items = .word w :: rest ∧ Keyword.of? (.word w) = none

def Requirement.literal (r : Requirement) : Literal := ⟨r.affirmed, r.belief.items⟩

/-- What an observer is asked for: one literal, or literals that are joined by `and`. -/
inductive Demand where
  | one (r : Requirement)
  | all (rs : List Requirement)

namespace Demand

def requirements : Demand → List Requirement
  | one r => [r]
  | all rs => rs

/-- A demand as the condition of a `when`. -/
def condition : Demand → Condition
  | one r => .literal r.literal r.headed
  | all rs => .all (rs.map fun r => .literal r.literal r.headed)

/-- The beliefs that are asked for with a sign. -/
def asked (affirmed : Bool) (d : Demand) : List Phrase :=
  (d.requirements.filter (·.affirmed == affirmed)).map (·.belief)

/-- The beliefs of a sign as they stand in a guard. -/
def guarding (affirmed : Bool) (d : Demand) : List Phrase :=
  match d with
  | one r => if r.affirmed == affirmed then [r.belief] else [.blank]
  | all _ => d.asked affirmed

theorem mem_guarding {affirmed : Bool} {d : Demand} {φ : Phrase} (h : φ ∈ d.guarding affirmed) :
    φ = .blank ∨ φ ∈ d.asked affirmed := by
  cases d with
  | one r =>
    simp only [guarding] at h
    split at h
    · rename_i hsign
      rw [List.mem_singleton.1 h]
      exact .inr (List.mem_map.2 ⟨r, List.mem_filter.2 ⟨List.mem_cons_self, hsign⟩, rfl⟩)
    · exact .inl (List.mem_singleton.1 h)
  | all rs => exact .inr h

/-- **A demand is read as the guard of its beliefs.** -/
theorem guard_condition (d : Demand) :
    d.condition.guard = ⟨(d.guarding true).map Phrase.tree, (d.guarding false).map Phrase.tree⟩ := by
  cases d with
  | one r =>
    rcases r with ⟨_ | _, φ, hφ⟩ <;> rfl
  | all rs =>
    have hflat : (condition (all rs)).isFlat = true := by
      simp [condition, Condition.isFlat, Condition.literal?]
    have hliterals : Condition.literalsAll (rs.map fun r => .literal r.literal r.headed) =
        rs.map Requirement.literal := by
      induction rs with
      | nil => rfl
      | cons r rs ih =>
        have hrest := ih (by simp [condition, Condition.isFlat, Condition.literal?])
        rw [List.map_cons, Condition.literalsAll, hrest]
        rfl
    have hatoms : ∀ affirmed, Literal.atoms affirmed (rs.map Requirement.literal) =
        ((all rs).asked affirmed).map Phrase.tree := by
      intro affirmed
      rw [Literal.atoms, List.filter_map, List.map_map, asked, List.map_map]
      rfl
    rw [Condition.guard_of_isFlat hflat, condition, Condition.stated, hliterals, hatoms, hatoms]
    rfl

theorem lists_guarding {change : Phrase → Phrase} (hblank : change .blank = .blank) (affirmed : Bool) (d : Demand) :
    MAp.Lists (((d.guarding affirmed).map change).map Phrase.tree) ((d.asked affirmed).map change) := by
  cases d with
  | one r =>
    simp only [guarding, asked, requirements]
    by_cases hsign : (r.affirmed == affirmed) = true
    · rw [if_pos hsign, List.filter_singleton, hsign]
      exact .inl rfl
    · rw [if_neg hsign, List.filter_singleton, Bool.eq_false_iff.2 hsign, List.map_singleton, hblank]
      exact .inr ⟨rfl, rfl⟩
  | all rs => exact .inl rfl

end Demand
end Epistemic
