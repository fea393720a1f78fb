import Epistemic.Proofs.EnclosedFormulas
import Epistemic.Proofs.GroupOperators
/-!
# Beliefs and their texts

A belief is an atom, or an operator before a belief.  What an operator stands before goes on in the same list or has a
list of its own, and it is written in the same way: the operator, the belief, and a parenthesis that closes it
(`Phrase.formulaFrom_items`).
-/
namespace Epistemic

open MAp (operatorText formulaFrom)

/-- A belief: an atom, or an operator of some agents before a belief, in the same list or before a list of its own. -/
inductive Phrase where
  | atom (words : List String)
  | believed (agents : List String) (inner : Phrase)
  | enclosed (agents : List String) (inner : Phrase)
  deriving DecidableEq, Repr

namespace Phrase

/-- The items of a belief. -/
def items : Phrase → List Tree
  | atom ws => ws.map .word
  | believed as φ => operatorTree as :: φ.items
  | enclosed as φ => [operatorTree as, .list φ.items]

/-- The text of a belief. -/
def text : Phrase → String
  | atom ws => String.intercalate "_" ws
  | believed as φ => operatorText as ++ φ.text ++ ")"
  | enclosed as φ => operatorText as ++ φ.text ++ ")"

/-- A belief with words in its atom, whose words and groups of agents are as given. -/
def Each (word : String → Prop) (group : List String → Prop) : Phrase → Prop
  | atom ws => ws ≠ [] ∧ ∀ w ∈ ws, word w
  | believed as φ => group as ∧ φ.Each word group
  | enclosed as φ => group as ∧ φ.Each word group

/-- A belief that can be written: no parenthesis stands in a word or in the name of an agent. -/
def IsClear (φ : Phrase) : Prop := φ.Each (fun w => '(' ∉ w.toList) fun as => ∀ a ∈ as, '(' ∉ a.toList

variable {word word' : String → Prop} {group group' : List String → Prop}

theorem Each.imp {φ : Phrase} (h : φ.Each word group) (hword : ∀ w, word w → word' w)
    (hgroup : ∀ as, group as → group' as) : φ.Each word' group' := by
  induction φ with
  | atom ws => exact ⟨h.1, fun w hw => hword w (h.2 w hw)⟩
  | believed as φ ih => exact ⟨hgroup as h.1, ih h.2⟩
  | enclosed as φ ih => exact ⟨hgroup as h.1, ih h.2⟩

theorem Each.items_eq {φ : Phrase} (h : φ.Each word group) : ∃ w rest, φ.items = .word w :: rest := by
  cases φ with
  | atom ws =>
    obtain ⟨w, ws, rfl⟩ := List.exists_cons_of_ne_nil h.1
    exact ⟨w, ws.map .word, rfl⟩
  | believed as φ => exact ⟨_, _, rfl⟩
  | enclosed as φ => exact ⟨_, _, rfl⟩

theorem isOperator_of_not_mem {w : String} (h : '(' ∉ w.toList) : Literals.isOperator (.word w) = false :=
  Bool.eq_false_iff.2 fun hop => h (parenthesis_mem_of_isOperator hop)

/-- **A belief is printed as its text**, with what was open before it closed behind it. -/
theorem formulaFrom_items {φ : Phrase} (h : φ.IsClear) : ∀ opened,
    formulaFrom 0 opened φ.items = .ok (φ.text ++ closings opened) := by
  have hbefore : ∀ {as : List String} {φ : Phrase}, (∀ a ∈ as, '(' ∉ a.toList) → φ.IsClear →
      (∀ opened, formulaFrom 0 opened φ.items = .ok (φ.text ++ closings opened)) → ∀ opened,
      formulaFrom 0 opened (operatorTree as :: φ.items) =
        .ok (operatorText as ++ φ.text ++ ")" ++ closings opened) := by
    intro as φ has hφ ih opened
    have hinner := ih (opened + 1)
    obtain ⟨w, rest, hitems⟩ := Each.items_eq hφ
    rw [hitems] at hinner ⊢
    rw [operatorTree, MAp.formulaFrom_before_word (MAp.operator?_of_not_mem has), hinner, closings_succ]
    simp [Except.map, String.append_assoc]
  induction φ with
  | atom ws => exact fun opened => MAp.formulaFrom_words opened fun w hw => isOperator_of_not_mem (h.2 w hw)
  | believed as φ ih => exact hbefore h.1 h.2 (ih h.2)
  | enclosed as φ ih =>
    -- a list behind an operator is written like what it holds
    intro opened
    have hflat := hbefore h.1 h.2 (ih h.2) opened
    obtain ⟨w, rest, hitems⟩ := Each.items_eq h.2
    rw [hitems] at hflat
    rw [items, hitems, operatorTree, MAp.formulaFrom_enclosed (MAp.operator?_of_not_mem h.1)]
    exact hflat

theorem formula_items {φ : Phrase} (h : φ.IsClear) : MAp.formula (.list φ.items) = .ok φ.text := by
  rw [MAp.formula, Tree.items, formulaFrom_items h 0]
  simp [closings]

end Phrase
end Epistemic
