import Epistemic.Proofs.Rendering
import Epistemic.Proofs.Words
/-!
# Brackets and operators

A word of a tree that a text is read into has a parenthesis only if it is an operator, behind the mark `B` or `C`
(`scan_operators_iff`).  Where every opening bracket of the tokens is followed by its agents and the bracket that closes
it, the operators of the tree are those of the brackets, in order, unless a closing bracket stands alone behind one of
them: it repeats the operator before it with one more comma (`run_grouped`).
-/
namespace Epistemic
namespace Tree

mutual
/-- The words of a tree, from left to right. -/
def leaves : Tree → List String
  | .word w => [w]
  | .list xs => leavesOf xs
/-- The words of some trees, from left to right. -/
def leavesOf : List Tree → List String
  | [] => []
  | x :: xs => leaves x ++ leavesOf xs
end

theorem leavesOf_append (xs ys : List Tree) : leavesOf (xs ++ ys) = leavesOf xs ++ leavesOf ys := by
  induction xs with
  | nil => rfl
  | cons x xs ih => rw [List.cons_append, leavesOf, leavesOf, ih, List.append_assoc]

theorem leavesOf_singleton (x : Tree) : leavesOf [x] = x.leaves := by
  rw [leavesOf, leavesOf, List.append_nil]

mutual
theorem AllWords.leaves {P : String → Prop} : ∀ {t : Tree}, t.AllWords P → ∀ w ∈ t.leaves, P w
  | .word _, h => List.forall_mem_singleton.2 h
  | .list _, h => AllWordsOf.leavesOf h
theorem AllWordsOf.leavesOf {P : String → Prop} : ∀ {xs : List Tree}, AllWordsOf P xs → ∀ w ∈ leavesOf xs, P w
  | [], _ => by simp [Tree.leavesOf]
  | _ :: _, h => List.forall_mem_append.2 ⟨AllWords.leaves h.1, AllWordsOf.leavesOf h.2⟩
end

end Tree

namespace Source

/-! ## Words with a parenthesis -/

/-- A word with one parenthesis, which stands behind the mark of an operator at its front. -/
def IsMarkedWord (w : String) : Prop :=
  ∃ mark rest, w.toList = mark :: '(' :: rest ∧ (mark = 'B' ∨ mark = 'C') ∧ ∀ c ∈ rest, isParenthesis c = false

theorem isParenthesis_iff {c : Char} : isParenthesis c = true ↔ c = '(' ∨ c = ')' := by
  rw [isParenthesis, Bool.or_eq_true, beq_iff_eq, beq_iff_eq]

/-- An operator in the making, without a parenthesis that closes. -/
def IsOpening (operator : String) : Prop := Nest.IsBegun operator ∧ ')' ∉ operator.toList

theorem tokenClass_isOpening : TokenClass IsTextWord IsOpening IsOpening where
  comma := isTextWord_comma
  word _ hw := ⟨.inl hw.parenthesis, hw.closing⟩
  empty := ⟨tokenClass_isScanned.empty, by decide⟩
  belief := ⟨tokenClass_isScanned.belief, by decide⟩
  append operator text h htext := by
    refine ⟨h.1.append htext.parenthesis htext.newline, ?_⟩
    rw [String.toList_append, List.mem_append, not_or]
    exact ⟨h.2, htext.closing⟩
  finish operator several h := by
    have hopening : IsOpening (Nest.finished operator several) := by
      refine ⟨(h.1.finish several).begun, ?_⟩
      have hcomma : ')' ∉ (operator ++ ",").toList := by simpa using h.2
      cases several with
      | false => exact hcomma
      | true =>
        rw [Nest.finished, if_pos rfl, String.toList_ofList]
        exact fun hmem => (Text.mem_of_mem_replaceFrom hmem).elim (by decide) hcomma
    exact ⟨hopening, hopening⟩

theorem IsOpening.isMarkedWord {w : String} (h : IsOpening w) (hw : '(' ∈ w.toList) : IsMarkedWord w := by
  rcases h.1 with hnone | ⟨mark, agents, heq, hmark, hopen, -⟩
  · exact absurd hw hnone
  · refine ⟨mark, agents, heq, hmark, fun c hc => ?_⟩
    have hclose : ')' ∉ agents := by
      have hclosing := h.2
      rw [heq] at hclosing
      exact fun hm => hclosing (by simp [hm])
    rw [← Bool.not_eq_true, isParenthesis_iff]
    rintro (rfl | rfl)
    · exact hopen hc
    · exact hclose hc

theorem isOperator_of_mark {w : String} {mark : Char} {rest : List Char} (hw : w.toList = mark :: '(' :: rest)
    (hmark : mark = 'B' ∨ mark = 'C') : Literals.isOperator (.word w) = true := by
  have hoccurs : Text.occurs [mark, '('] w.toList = true := Text.occurs_pair_iff.2 ⟨[], rest, hw⟩
  rw [Literals.isOperator, Bool.or_eq_true]
  rcases hmark with rfl | rfl
  · exact .inl hoccurs
  · exact .inr hoccurs

theorem IsOpening.isOperator_iff {w : String} (h : IsOpening w) :
    Literals.isOperator (.word w) = true ↔ '(' ∈ w.toList := by
  constructor
  · exact parenthesis_mem_of_isOperator
  · intro hw
    obtain ⟨mark, rest, heq, hmark, -⟩ := h.isMarkedWord hw
    exact isOperator_of_mark heq hmark

theorem IsOpening.parenthesis_iff {w : String} (h : IsOpening w) :
    (∃ c ∈ w.toList, isParenthesis c = true) ↔ '(' ∈ w.toList := by
  constructor
  · rintro ⟨c, hc, hp⟩
    rcases isParenthesis_iff.1 hp with rfl | rfl
    · exact hc
    · exact absurd hc h.2
  · exact fun hw => ⟨'(', hw, rfl⟩

/-! ## Leaves and steps -/

namespace Nest

/-- The words of a tree in the making. -/
def leaves (n : Nest) : List String :=
  (n.outer.reverse.flatMap fun items => Tree.leavesOf items.reverse) ++ Tree.leavesOf n.items.reverse

/-- The words that a token adds. -/
def added (n : Nest) : Token → List String
  | .closeAgents => [finished n.operator n.several]
  | .word w => if n.inAgents then [] else [w]
  | _ => []

theorem leaves_push (n : Nest) (t : Tree) : (n.push t).leaves = n.leaves ++ t.leaves := by
  simp only [leaves, push, List.reverse_cons, Tree.leavesOf_append, Tree.leavesOf_singleton, List.append_assoc]

/-- **One token adds its word behind those that are there**, wherever lists are opened and closed. -/
theorem step_leaves {n m : Nest} {t : Token} (h : n.step t = .ok m) : m.leaves = n.leaves ++ n.added t := by
  cases t with
  | openList =>
    cases h
    simp [leaves, added, Tree.leavesOf]
  | closeList =>
    rw [step] at h
    split at h
    · cases h
    · rename_i around outer heq
      cases h
      simp [leaves, added, heq, Tree.leavesOf_append, Tree.leavesOf_singleton, Tree.leaves]
  | openAgents =>
    cases h
    exact (List.append_nil _).symm
  | closeAgents =>
    cases h
    exact leaves_push n (.word _)
  | word w =>
    rw [step] at h
    split at h
    · rename_i hin
      cases h
      simp only [added, hin, if_true, List.append_nil]
      rfl
    · rename_i hin
      cases h
      rw [leaves_push, added, if_neg hin]
      rfl

theorem exists_step {n m : Nest} {t : Token} {ts : List Token} (h : run (t :: ts) n = .ok m) :
    ∃ k, n.step t = .ok k ∧ run ts k = .ok m := by
  unfold run at h
  split at h
  · rename_i k hk
    exact ⟨k, hk, h⟩
  · cases h

theorem run_append {n m : Nest} {ts us : List Token} (h : run ts n = .ok m) : run (ts ++ us) n = run us m := by
  induction ts generalizing n with
  | nil =>
    cases h
    rfl
  | cons t ts ih =>
    obtain ⟨k, hk, hrun⟩ := exists_step h
    rw [List.cons_append, run_cons hk, ih hrun]

theorem mem_replaceFrom {d : Char} {piece new : List Char} (hd : d ∈ new) {skip : Nat} {cs : List Char}
    (h : d ∈ cs.drop skip) : d ∈ Text.replaceFrom piece new skip cs := by
  fun_induction Text.replaceFrom piece new skip cs with
  | case1 => simp at h
  | case2 skip c cs ih => exact ih h
  | case3 c cs _ ih => exact List.mem_append_left _ hd
  | case4 c cs _ ih => exact (List.mem_cons.1 h).elim (fun heq => heq ▸ List.mem_cons_self) fun h =>
      List.mem_cons_of_mem c (ih h)

theorem mem_finished {operator : String} (h : '(' ∈ operator.toList) (several : Bool) :
    '(' ∈ (finished operator several).toList := by
  have hcomma : '(' ∈ (operator ++ ",").toList := by
    rw [String.toList_append]
    exact List.mem_append_left _ h
  cases several with
  | false => exact hcomma
  | true =>
    rw [finished, if_pos rfl, String.toList_ofList]
    exact mem_replaceFrom (by decide) hcomma

/-- The operator keeps its parenthesis until another one is begun, which has one too. -/
theorem step_parenthesis {n m : Nest} {t : Token} (h : n.step t = .ok m)
    (hn : t = .openAgents ∨ '(' ∈ n.operator.toList) : '(' ∈ m.operator.toList := by
  cases t with
  | openList =>
    cases h
    exact hn.resolve_left (by simp)
  | closeList =>
    have hop := hn.resolve_left (by simp)
    rw [step] at h
    split at h
    · cases h
    · cases h
      exact hop
  | openAgents =>
    cases h
    show '(' ∈ "B(".toList
    decide
  | closeAgents =>
    cases h
    exact mem_finished (hn.resolve_left (by simp)) n.several
  | word w =>
    have hop := hn.resolve_left (by simp)
    rw [step] at h
    split at h
    · cases h
      simp only [String.toList_append, List.mem_append]
      refine .inl ?_
      split
      · exact hop
      · rw [String.toList_append]
        exact List.mem_append_left _ hop
    · cases h
      exact hop

theorem run_parenthesis {ts : List Token} {n m : Nest} (h : run ts n = .ok m)
    (hn : .openAgents ∈ ts ∨ '(' ∈ n.operator.toList) : '(' ∈ m.operator.toList := by
  induction ts generalizing n with
  | nil =>
    cases h
    exact hn.resolve_left List.not_mem_nil
  | cons t ts ih =>
    obtain ⟨k, hk, hrun⟩ := exists_step h
    by_cases hopen : .openAgents ∈ ts
    · exact ih hrun (.inl hopen)
    · refine ih hrun (.inr (step_parenthesis hk ?_))
      exact hn.imp_left fun hmem => ((List.mem_cons.1 hmem).resolve_right hopen).symm

end Nest

/-! ## Brackets in order -/

/-- The agents that stand at the front of tokens. -/
def agentsAt : List Token → List String
  | .word w :: ts => w :: agentsAt ts
  | _ => []

/-- The agents of each opening bracket, in order. -/
def brackets : List Token → List (List String)
  | [] => []
  | .openAgents :: ts => agentsAt ts :: brackets ts
  | _ :: ts => brackets ts

/-- Every opening bracket is followed by the one that closes it, with nothing but agents between them. -/
def BracketsClose (ts : List Token) : Prop := ∀ before behind, ts = before ++ .openAgents :: behind →
  ∃ (agents : List String) (rest : List Token), behind = agents.map .word ++ .closeAgents :: rest

/-- Tokens of which every opening bracket is closed, bracket by bracket. -/
inductive Grouped : List Token → Prop
  | nil : Grouped []
  | other {t : Token} {ts : List Token} (ht : t ≠ .openAgents) (h : Grouped ts) : Grouped (t :: ts)
  | bracket (agents : List String) {ts : List Token} (h : Grouped ts) :
      Grouped (.openAgents :: (agents.map .word ++ .closeAgents :: ts))

theorem BracketsClose.of_append (ts : List Token) {us : List Token} (h : BracketsClose (ts ++ us)) :
    BracketsClose us := by
  intro before behind heq
  refine h (ts ++ before) behind ?_
  rw [heq, List.append_assoc]

theorem BracketsClose.grouped {ts : List Token} (h : BracketsClose ts) : Grouped ts := by
  induction hn : ts.length using Nat.strongRecOn generalizing ts with
  | _ n ih =>
    subst hn
    cases ts with
    | nil => exact .nil
    | cons t ts =>
      by_cases ht : t = .openAgents
      · subst ht
        obtain ⟨agents, rest, rfl⟩ := h [] ts rfl
        have hrest : BracketsClose rest := by
          refine BracketsClose.of_append (.openAgents :: (agents.map .word ++ [.closeAgents])) ?_
          simpa using h
        refine .bracket agents (ih rest.length ?_ hrest rfl)
        simp only [List.length_cons, List.length_append]
        omega
      · exact .other ht (ih ts.length (by simp) (BracketsClose.of_append [t] h) rfl)

theorem brackets_words (agents : List String) (ts : List Token) : brackets (agents.map .word ++ ts) = brackets ts := by
  induction agents with
  | nil => rfl
  | cons a agents ih => exact ih

theorem agentsAt_words (agents : List String) (ts : List Token) :
    agentsAt (agents.map .word ++ .closeAgents :: ts) = agents := by
  induction agents with
  | nil => rfl
  | cons a agents ih => exact congrArg (a :: ·) ih

theorem brackets_bracket (agents : List String) (ts : List Token) :
    brackets (.openAgents :: (agents.map .word ++ .closeAgents :: ts)) = agents :: brackets ts := by
  rw [brackets, agentsAt_words, brackets_words]
  rfl

theorem length_brackets (ts : List Token) : (brackets ts).length = ts.count .openAgents := by
  induction ts with
  | nil => rfl
  | cons t ts ih => cases t <;> simp [brackets, ih]

theorem count_words {t : Token} (ht : ∀ w, t ≠ .word w) (agents : List String) :
    (agents.map Token.word).count t = 0 := by
  refine List.count_eq_zero.2 fun hm => ?_
  obtain ⟨w, -, heq⟩ := List.mem_map.1 hm
  exact ht w heq.symm

/-- The operators among words. -/
def operatorsOf (ws : List String) : List String := ws.filter fun w => Literals.isOperator (.word w)

theorem operatorsOf_concat {w : String} (h : Literals.isOperator (.word w) = true) (ws : List String) :
    operatorsOf (ws ++ [w]) = operatorsOf ws ++ [w] := by
  rw [operatorsOf, List.filter_append]
  exact congrArg (operatorsOf ws ++ ·) (List.filter_cons_of_pos h)

theorem operatorsOf_concat_of_not {w : String} (h : Literals.isOperator (.word w) = false) (ws : List String) :
    operatorsOf (ws ++ [w]) = operatorsOf ws := by
  rw [operatorsOf, List.filter_append, List.filter_cons_of_neg (by rw [h]; exact Bool.false_ne_true)]
  exact List.append_nil _

/-- The tokens from the first opening bracket on, or all if one came before them. -/
def behindBracket (begun : Bool) (ts : List Token) : List Token :=
  if begun then ts else ts.dropWhile (· != .openAgents)

/-- The operators that tokens add: as many as there are closing brackets behind the first opening one, and those of the
brackets if each of these closes one. -/
structure Nest.AddsOperators (n m : Nest) (ts : List Token) (ops : List String) : Prop where
  leaves : operatorsOf m.leaves = operatorsOf n.leaves ++ ops
  length : ops.length = (behindBracket (n.operator.toList.contains '(') ts).count .closeAgents
  opened : ts.count .openAgents ≤ ops.length
  names : ops.length = ts.count .openAgents → ops = (brackets ts).map operatorName

namespace Nest

theorem isOperator_operatorName (agents : List String) : Literals.isOperator (.word (operatorName agents)) = true := by
  have hlist : ∀ {mark : Char}, (operatorName agents) =
      String.ofList [mark, '('] ++ (String.intercalate "," agents ++ ",") →
      (operatorName agents).toList = mark :: '(' :: (String.intercalate "," agents ++ ",").toList := by
    intro mark h
    rw [h, String.toList_append, String.toList_ofList]
    rfl
  by_cases h : agents.length ≤ 1
  · refine isOperator_of_mark (hlist ?_) (.inl rfl)
    rw [operatorName, if_pos h, String.append_assoc]
  · refine isOperator_of_mark (hlist ?_) (.inr rfl)
    rw [operatorName, if_neg h, String.append_assoc]

/-- A token that is no bracket adds no operator. -/
theorem AddsOperators.other {n k m : Nest} {t : Token} {ts : List Token} {ops : List String}
    (h : k.AddsOperators m ts ops) (hleaves : operatorsOf k.leaves = operatorsOf n.leaves)
    (hoperator : k.operator = n.operator)
    (hopen : t ≠ .openAgents) (hclose : t ≠ .closeAgents) (hbrackets : brackets (t :: ts) = brackets ts) :
    n.AddsOperators m (t :: ts) ops where
  leaves := by rw [h.leaves, hleaves]
  length := by
    rw [h.length, hoperator]
    unfold behindBracket
    split
    · rw [List.count_cons_of_ne hclose]
    · rw [List.dropWhile_cons_of_pos (by rwa [bne_iff_ne])]
  opened := by
    rw [List.count_cons_of_ne hopen]
    exact h.opened
  names := by
    rw [List.count_cons_of_ne hopen, hbrackets]
    exact h.names

theorem step_other {n k : Nest} {t : Token} (hn : n.Outside) (hopen : t ≠ .openAgents) (hclose : t ≠ .closeAgents)
    (hword : ∀ w, t = .word w → IsTextWord w) (h : n.step t = .ok k) :
    k.Outside ∧ k.operator = n.operator ∧ operatorsOf k.leaves = operatorsOf n.leaves := by
  have hleaves := step_leaves h
  cases t with
  | openList =>
    cases h
    exact ⟨hn, rfl, by rw [hleaves]; exact congrArg operatorsOf (List.append_nil _)⟩
  | closeList =>
    rw [step] at h
    split at h
    · cases h
    · cases h
      exact ⟨hn, rfl, by rw [hleaves]; exact congrArg operatorsOf (List.append_nil _)⟩
  | openAgents => exact absurd rfl hopen
  | closeAgents => exact absurd rfl hclose
  | word w =>
    have hplain : Literals.isOperator (.word w) = false :=
      Bool.eq_false_iff.2 fun hop => (hword w rfl).parenthesis (parenthesis_mem_of_isOperator hop)
    rw [step, hn.1, if_neg Bool.false_ne_true] at h
    cases h
    refine ⟨hn, rfl, ?_⟩
    rw [hleaves, added, hn.1, if_neg Bool.false_ne_true, operatorsOf_concat_of_not hplain]

/-- **A closing bracket that stands alone** adds the operator before it with one more comma, if there was one. -/
theorem AddsOperators.alone {n k m : Nest} {ts : List Token} {ops : List String} (hn : n.Outside)
    (hk : n.step .closeAgents = .ok k) (hopening : IsOpening k.operator) (h : k.AddsOperators m ts ops) :
    ∃ ops', n.AddsOperators m (.closeAgents :: ts) ops' := by
  have hleaves := step_leaves hk
  have hoperator : k.operator = finished n.operator n.several := by
    cases hk
    rfl
  rw [added, ← hoperator] at hleaves
  have hcontains : k.operator.toList.contains '(' = n.operator.toList.contains '(' := by
    rw [hoperator, hn.2, finished, if_neg Bool.false_ne_true, String.toList_append, List.contains_append]
    exact Bool.or_false _
  have hcount : (Token.closeAgents :: ts).count .openAgents = ts.count .openAgents := List.count_cons_of_ne (by decide)
  by_cases hbegun : n.operator.toList.contains '(' = true
  · have hop : Literals.isOperator (.word k.operator) = true := by
      rw [hopening.isOperator_iff, ← List.contains_iff_mem, hcontains]
      exact hbegun
    have hlength : ops.length = ts.count .closeAgents := by
      rw [h.length, hcontains, hbegun]
      rfl
    refine ⟨k.operator :: ops, ⟨?_, ?_, ?_, ?_⟩⟩
    · rw [h.leaves, hleaves, operatorsOf_concat hop, ← List.append_cons]
    · rw [hbegun, List.length_cons, hlength]
      exact List.count_cons_self.symm
    · rw [hcount, List.length_cons]
      exact Nat.le_succ_of_le h.opened
    · intro heq
      rw [hcount, List.length_cons] at heq
      have := h.opened
      omega
  · have hnone : Literals.isOperator (.word k.operator) = false := by
      rw [← Bool.not_eq_true, hopening.isOperator_iff, ← List.contains_iff_mem, hcontains]
      exact hbegun
    rw [Bool.not_eq_true] at hbegun
    refine ⟨ops, ⟨?_, ?_, by rw [hcount]; exact h.opened, by rw [hcount]; exact h.names⟩⟩
    · rw [h.leaves, hleaves, operatorsOf_concat_of_not hnone]
    · rw [h.length, hcontains, hbegun]
      rfl

/-- **A bracket that is closed** adds its operator. -/
theorem AddsOperators.bracket {n k m : Nest} {agents : List String} {ts : List Token} {ops : List String}
    (h : k.AddsOperators m ts ops) (hleaves : k.leaves = n.leaves ++ [operatorName agents])
    (hbegun : k.operator.toList.contains '(' = true) :
    n.AddsOperators m (.openAgents :: (agents.map .word ++ .closeAgents :: ts)) (operatorName agents :: ops) := by
  have hopened : (Token.openAgents :: (agents.map .word ++ .closeAgents :: ts)).count .openAgents =
      ts.count .openAgents + 1 := by
    rw [List.count_cons_self, List.count_append, count_words (by simp), List.count_cons_of_ne (by decide), Nat.zero_add]
  refine ⟨?_, ?_, ?_, ?_⟩
  · rw [h.leaves, hleaves, operatorsOf_concat (isOperator_operatorName agents), ← List.append_cons]
  · have hlength : ops.length = ts.count .closeAgents := by
      rw [h.length, hbegun]
      rfl
    have hall : ∀ begun, behindBracket begun (.openAgents :: (agents.map .word ++ .closeAgents :: ts)) =
        .openAgents :: (agents.map .word ++ .closeAgents :: ts) := by
      intro begun
      cases begun <;> rfl
    rw [hall, List.count_cons_of_ne (by decide), List.count_append, count_words (by simp), List.count_cons_self,
      List.length_cons, hlength, Nat.zero_add]
  · rw [hopened, List.length_cons]
    exact Nat.succ_le_succ h.opened
  · intro heq
    rw [hopened, List.length_cons, Nat.succ.injEq] at heq
    rw [brackets_bracket, List.map_cons, h.names heq]

/-- **What grouped tokens add**, token by token and bracket by bracket. -/
theorem run_grouped {ts : List Token} (h : Grouped ts) {n m : Nest} (hn : n.Outside)
    (hopening : n.Within IsOpening IsOpening) (hwords : ∀ w, .word w ∈ ts → IsTextWord w)
    (hrun : run ts n = .ok m) : ∃ ops, n.AddsOperators m ts ops := by
  induction h generalizing n with
  | nil =>
    cases hrun
    refine ⟨[], ⟨(List.append_nil _).symm, ?_, Nat.le_refl _, fun _ => rfl⟩⟩
    unfold behindBracket
    split <;> rfl
  | @other t ts ht _ ih =>
    obtain ⟨k, hk, hrest⟩ := exists_step hrun
    have hword : ∀ w, t = .word w → IsTextWord w := fun w hw => hwords w (hw ▸ List.mem_cons_self)
    have hkopening := hopening.step tokenClass_isOpening hword hk
    have hrestWords : ∀ w, .word w ∈ ts → IsTextWord w := fun w hw => hwords w (List.mem_cons_of_mem t hw)
    by_cases hclose : t = .closeAgents
    · subst hclose
      have hkout : k.Outside := by
        cases hk
        exact ⟨rfl, rfl⟩
      obtain ⟨ops, hops⟩ := ih hkout hkopening hrestWords hrest
      exact hops.alone hn hk hkopening.operator
    · obtain ⟨hkout, hoperator, hleaves⟩ := step_other hn ht hclose hword hk
      obtain ⟨ops, hops⟩ := ih hkout hkopening hrestWords hrest
      refine ⟨ops, hops.other hleaves hoperator ht hclose ?_⟩
      cases t with
      | openAgents => exact absurd rfl ht
      | _ => rfl
  | @bracket agents ts _ ih =>
    have hagents : ∀ a ∈ agents, IsTextWord a := fun a ha => hwords a (by simp [ha])
    -- the state behind the bracket is reached by its tokens alone
    obtain ⟨k, hk, hgrown⟩ := run_operator agents (fun a ha => (hagents a ha).parenthesis) [] n hn
    have hkrun : run (.openAgents :: (agents.map .word ++ [.closeAgents])) n = .ok k := hk
    have hrest : run ts k = .ok m := by
      rw [← hrun, ← run_append hkrun]
      simp only [List.cons_append, List.append_assoc, List.nil_append]
    have hkopening : k.Within IsOpening IsOpening := by
      refine hopening.run tokenClass_isOpening (fun w hw => ?_) hkrun
      simp only [List.mem_cons, List.mem_append, reduceCtorEq, false_or, List.not_mem_nil, or_false, List.mem_map,
        Token.word.injEq, exists_eq_right] at hw
      exact hagents w hw
    obtain ⟨ops, hops⟩ := ih hgrown.outside hkopening (fun w hw => hwords w (by simp [hw])) hrest
    have hbegun : k.operator.toList.contains '(' = true :=
      List.contains_iff_mem.2 (run_parenthesis hkrun (.inl List.mem_cons_self))
    have hleaves : k.leaves = n.leaves ++ [operatorName agents] := by
      have hpush : k.leaves = (n.push (.word (operatorName agents))).leaves := by
        rw [leaves, leaves, hgrown.outer, hgrown.items]
        rfl
      rw [hpush, leaves_push]
      rfl
    exact ⟨_, hops.bracket hleaves hbegun⟩

end Nest

/-! ## Reading -/

theorem exists_run_of_nest {ts : List Token} {t : Tree} (h : nest ts = .ok t) :
    ∃ n, Nest.run ts {} = .ok n ∧ n.leaves = t.leaves := by
  unfold nest at h
  split at h
  · rename_i n hrun
    refine ⟨n, hrun, ?_⟩
    unfold Nest.finish at h
    split at h
    · cases h
    · rename_i u houter hitems
      cases h
      rw [Nest.leaves, houter, hitems]
      exact Tree.leavesOf_singleton t
    · cases h
  · cases h

/-- **The operators of a tree and the brackets of its text.**  A word of the tree that has a parenthesis has it behind
the mark of an operator at its front, and no other; the tests for operators find these words and no word of the text.
Where each opening bracket is closed behind its agents, the operators of the tree, from left to right, are those of the
brackets exactly if no closing bracket stands alone behind the first opening one. -/
theorem scan_operators_iff {text : String} {t : Tree} (h : scan .levels text = .ok t) :
    let ts := tokens (normalize .levels (plain (unifyNewlines text.toList)))
    (∀ w ∈ t.leaves, (∃ c ∈ w.toList, isParenthesis c = true) → IsMarkedWord w) ∧
    (∀ w ∈ t.leaves, Literals.isOperator (.word w) = true ↔ ∃ c ∈ w.toList, isParenthesis c = true) ∧
    (∀ w, .word w ∈ ts → Literals.isOperator (.word w) = false) ∧
    (BracketsClose ts → ((t.leaves.filter fun w => Literals.isOperator (.word w)) = (brackets ts).map operatorName ↔
      (ts.dropWhile (· != .openAgents)).count .closeAgents = ts.count .openAgents)) := by
  intro ts
  have hopening : ∀ w ∈ t.leaves, IsOpening w := (tokenClass_isOpening.of_scan h).leaves
  have hwords : ∀ w, .word w ∈ ts → IsTextWord w := fun w hw => isTextWord_of_mem (by simp) hw
  refine ⟨fun w hw hp => ?_, fun w hw => ?_, fun w hw => ?_, fun hclose => ?_⟩
  · exact (hopening w hw).isMarkedWord ((hopening w hw).parenthesis_iff.1 hp)
  · rw [(hopening w hw).isOperator_iff, (hopening w hw).parenthesis_iff]
  · exact Bool.eq_false_iff.2 fun hop => (hwords w hw).parenthesis (parenthesis_mem_of_isOperator hop)
  · obtain ⟨n, hrun, hleaves⟩ := exists_run_of_nest h
    obtain ⟨ops, hops⟩ := Nest.run_grouped hclose.grouped ⟨rfl, rfl⟩
      ⟨by simp, by simp, tokenClass_isOpening.empty⟩ hwords hrun
    have hadded : operatorsOf t.leaves = ops := by
      rw [← hleaves, hops.leaves]
      rfl
    have hlength : ops.length = (ts.dropWhile (· != .openAgents)).count .closeAgents := hops.length
    show operatorsOf t.leaves = _ ↔ _
    rw [hadded, ← hlength]
    constructor
    · intro heq
      rw [heq, List.length_map, length_brackets]
    · exact hops.names

/-- The second closing bracket of `(p [a b] ])` closes none, and makes another operator of the agents before it. -/
theorem scan_operators_iff_lone_bracket :
    scan .levels "(p [a b] ])" = .ok (.list [.word "p", .word "C(a,b,", .word "C(a,b,,"]) ∧
    BracketsClose (tokens (normalize .levels (plain (unifyNewlines "(p [a b] ])".toList)))) ∧
    (Tree.list [.word "p", .word "C(a,b,", .word "C(a,b,,"]).leaves.filter (fun w => Literals.isOperator (.word w)) ≠
      (brackets (tokens (normalize .levels (plain (unifyNewlines "(p [a b] ])".toList))))).map operatorName := by
  have hread : scan .levels "(p [a b] ])" = .ok (.list [.word "p", .word "C(a,b,", .word "C(a,b,,"]) := by
    decide +kernel
  have htokens : tokens (normalize .levels (plain (unifyNewlines "(p [a b] ])".toList))) = [.openList, .word "p"] ++
      .openAgents :: [.word "a", .word "b", .closeAgents, .closeAgents, .closeList] := by decide +kernel
  have hclose : BracketsClose (tokens (normalize .levels (plain (unifyNewlines "(p [a b] ])".toList)))) := by
    intro before behind heq
    rw [htokens] at heq
    obtain ⟨-, -, rfl⟩ := (List.append_cons_inj_of_notMem (by decide) (by decide)).1 heq
    exact ⟨["a", "b"], [.closeAgents, .closeList], rfl⟩
  refine ⟨hread, hclose, fun heq => ?_⟩
  have hcount := ((scan_operators_iff hread).2.2.2 hclose).1 heq
  rw [htokens] at hcount
  exact absurd hcount (by decide)

end Source
end Epistemic
