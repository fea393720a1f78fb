import Epistemic.Grounding.Substitution
import Epistemic.Proofs.Rendering
import Epistemic.Proofs.Words
/-!
# The text of an operator

What is found inside a word that is written as an operator (`IsOperatorWord.insideOperator_eq`), and the operators that
filling in writes: one agent (`isOperatorWord_belief`), one agent of several (`isOperatorWord_collapsed`), and the same
operator with a name replaced (`IsOperatorWord.replaceAll`).
-/
namespace Epistemic
namespace Text

/-! ## Splitting -/

theorem splitFirst?_singleton {x : Char} {after : List Char} : ∀ {before : List Char}, x ∉ before →
    splitFirst? [x] (before ++ x :: after) = some (before, after)
  | [], _ => by simp [splitFirst?]
  | c :: before, h => by
    rw [List.mem_cons, not_or] at h
    rw [List.cons_append, splitFirst?, splitFirst?_singleton h.2]
    simp [List.isPrefixOf, beq_false_of_ne h.1]

theorem splitFirst?_pair {c d : Char} (hcd : c ≠ d) {after : List Char} : ∀ {before : List Char}, d ∉ before →
    splitFirst? [c, d] (before ++ c :: d :: after) = some (before, after)
  | [], _ => by simp [splitFirst?]
  | b :: before, h => by
    rw [List.mem_cons, not_or] at h
    have hsecond : (before ++ c :: d :: after).head? ≠ some d := by
      cases before with
      | nil => simpa using hcd
      | cons b' before =>
        rw [List.mem_cons, not_or] at h
        simpa using Ne.symm h.2.1
    have hno : [c, d].isPrefixOf (b :: (before ++ c :: d :: after)) = false := by
      cases hrest : before ++ c :: d :: after with
      | nil => simp [List.isPrefixOf]
      | cons e rest =>
        rw [hrest] at hsecond
        have hde : d ≠ e := fun he => hsecond (by rw [he]; rfl)
        simp [List.isPrefixOf, hde]
    rw [List.cons_append, splitFirst?, hno, splitFirst?_pair hcd h.2]
    rfl

theorem mapStretches_of_forall {inside : Char → Bool} {f : List Char → List Char} : ∀ {cs stretch : List Char},
    (∀ c ∈ cs, inside c = true) → mapStretches inside f stretch cs = f (stretch.reverse ++ cs)
  | [], stretch, _ => by rw [mapStretches, List.append_nil]
  | c :: cs, stretch, h => by
    have h := List.forall_mem_cons.1 h
    rw [mapStretches, if_pos h.1, mapStretches_of_forall h.2, List.reverse_cons, List.append_assoc,
      List.singleton_append]

theorem mapStretches_append_of_forall {inside : Char → Bool} {f : List Char → List Char} : ∀ {xs stretch : List Char}
    (cs : List Char), (∀ c ∈ xs, inside c = true) →
    mapStretches inside f stretch (xs ++ cs) = mapStretches inside f (xs.reverse ++ stretch) cs
  | [], _, _, _ => rfl
  | x :: xs, stretch, cs, h => by
    obtain ⟨hx, hxs⟩ := List.forall_mem_cons.1 h
    rw [List.cons_append, mapStretches, if_pos hx, mapStretches_append_of_forall cs hxs]
    simp

section
variable {isSeparator : Char → Bool}

theorem exists_splitOn_eq_cons (isSeparator : Char → Bool) : ∀ x : List Char,
    ∃ run runs, splitOn isSeparator x = run :: runs
  | [] => ⟨[], [], rfl⟩
  | c :: x => by
    obtain ⟨run, runs, hx⟩ := exists_splitOn_eq_cons isSeparator x
    rw [splitOn, hx]
    split
    · exact ⟨[], _, rfl⟩
    · exact ⟨c :: run, runs, rfl⟩

/-- Text before the first run lengthens it. -/
theorem splitOn_append_left (x : List Char) : ∀ {a : List Char}, (∀ c ∈ a, isSeparator c = false) →
    ∃ run runs, splitOn isSeparator x = run :: runs ∧ splitOn isSeparator (a ++ x) = (a ++ run) :: runs
  | [], _ => by
    obtain ⟨run, runs, hx⟩ := exists_splitOn_eq_cons isSeparator x
    exact ⟨run, runs, hx, hx⟩
  | c :: a, h => by
    have h := List.forall_mem_cons.1 h
    obtain ⟨run, runs, hx, hax⟩ := splitOn_append_left x h.2
    exact ⟨run, runs, hx, by rw [List.cons_append, splitOn, h.1, hax]; rfl⟩

theorem splitOn_of_forall {cs : List Char} (h : ∀ c ∈ cs, isSeparator c = false) : splitOn isSeparator cs = [cs] := by
  obtain ⟨run, runs, hnil, hcs⟩ := splitOn_append_left [] h
  cases hnil
  simpa using hcs

/-- Text behind the last run lengthens it. -/
theorem splitOn_append_right {b : List Char} (hb : ∀ c ∈ b, isSeparator c = false) : ∀ x : List Char,
    ∃ runs last, splitOn isSeparator x = runs ++ [last] ∧ splitOn isSeparator (x ++ b) = runs ++ [last ++ b]
  | [] => ⟨[], [], rfl, splitOn_of_forall hb⟩
  | c :: x => by
    obtain ⟨runs, last, hx, hxb⟩ := splitOn_append_right hb x
    rw [List.cons_append, splitOn, splitOn, hx, hxb]
    by_cases hc : isSeparator c = true
    · rw [if_pos hc, if_pos hc]
      exact ⟨[] :: runs, last, rfl, rfl⟩
    · rw [if_neg hc, if_neg hc]
      cases runs with
      | nil => exact ⟨[], c :: last, rfl, rfl⟩
      | cons run runs => exact ⟨(c :: run) :: runs, last, rfl, rfl⟩

theorem not_mem_of_mem_splitOn {run : List Char} {c : Char} (hc : isSeparator c = true) : ∀ {cs : List Char},
    run ∈ splitOn isSeparator cs → c ∉ run
  | [], h => by
    rw [splitOn, List.mem_singleton] at h
    rw [h]
    exact List.not_mem_nil
  | d :: cs, h => by
    obtain ⟨first, runs, hcs⟩ := exists_splitOn_eq_cons isSeparator cs
    have ih : ∀ r ∈ first :: runs, c ∉ r := fun r hr => not_mem_of_mem_splitOn hc (hcs ▸ hr)
    rw [splitOn, hcs] at h
    by_cases hd : isSeparator d = true
    · rw [if_pos hd] at h
      rcases List.mem_cons.1 h with rfl | h
      · exact List.not_mem_nil
      · exact ih run h
    · rw [if_neg hd] at h
      rcases List.mem_cons.1 h with rfl | h
      · rw [List.mem_cons, not_or]
        exact ⟨fun he => hd (he ▸ hc), ih first List.mem_cons_self⟩
      · exact ih run (List.mem_cons_of_mem first h)

end

/-! ## Replacing -/

theorem prefix_of_prefix_append_cons {c : Char} {piece a b : List Char} (hc : c ∉ piece) (h : piece <+: a ++ c :: b) :
    piece <+: a := by
  rcases Nat.lt_or_ge a.length piece.length with hlt | hle
  · have hac : a ++ [c] <+: a ++ c :: b := ⟨b, by simp⟩
    have hsub := (List.prefix_of_prefix_length_le hac h (by rw [List.length_append]; exact hlt)).subset
    exact absurd (hsub (by simp)) hc
  · exact List.prefix_of_prefix_length_le h (List.prefix_append a _) hle

/-- **Nothing is replaced across a character that the piece does not hold.** -/
theorem replaceFrom_append_cons {c : Char} {piece : List Char} (new : List Char) (hc : c ∉ piece) (hne : piece ≠ [])
    (b : List Char) : ∀ (a : List Char) (skip : Nat), skip ≤ a.length →
      replaceFrom piece new skip (a ++ c :: b) = replaceFrom piece new skip a ++ c :: replaceFrom piece new 0 b
  | [], skip, hskip => by
    obtain rfl : skip = 0 := Nat.le_zero.1 hskip
    have hno : ¬ piece.isPrefixOf (c :: b) = true := fun h =>
      hne (List.prefix_nil.1 (prefix_of_prefix_append_cons hc (List.isPrefixOf_iff_prefix.1 h)))
    simp only [List.nil_append, replaceFrom, if_neg hno]
  | x :: a, skip + 1, hskip => by
    rw [List.cons_append, replaceFrom, replaceFrom,
      replaceFrom_append_cons new hc hne b a skip (Nat.le_of_succ_le_succ hskip)]
  | x :: a, 0, _ => by
    have hiff : piece.isPrefixOf (x :: (a ++ c :: b)) = true ↔ piece.isPrefixOf (x :: a) = true := by
      rw [List.isPrefixOf_iff_prefix, List.isPrefixOf_iff_prefix]
      exact ⟨prefix_of_prefix_append_cons (a := x :: a) hc, fun h => h.trans (List.prefix_append (x :: a) _)⟩
    rw [List.cons_append, replaceFrom, replaceFrom]
    by_cases hx : piece.isPrefixOf (x :: a) = true
    · have hlength : piece.length - 1 ≤ a.length := by
        have := (List.isPrefixOf_iff_prefix.1 hx).length_le
        rw [List.length_cons] at this
        omega
      rw [if_pos (hiff.2 hx), if_pos hx, replaceFrom_append_cons new hc hne b a _ hlength, List.append_assoc]
    · rw [if_neg (mt hiff.1 hx), if_neg hx, replaceFrom_append_cons new hc hne b a 0 (Nat.zero_le _)]
      rfl

theorem replaceAll_append_cons {c : Char} {piece : List Char} (new : List Char) (hc : c ∉ piece) (hne : piece ≠ [])
    (a b : List Char) : replaceAll piece new (a ++ c :: b) = replaceAll piece new a ++ c :: replaceAll piece new b :=
  replaceFrom_append_cons new hc hne b a 0 (Nat.zero_le _)

theorem replaceFrom_eq_drop (piece new : List Char) : ∀ (skip : Nat) (cs : List Char),
    replaceFrom piece new skip cs = replaceAll piece new (cs.drop skip)
  | 0, cs => rfl
  | skip + 1, [] => rfl
  | skip + 1, c :: cs => by
    rw [replaceFrom, replaceFrom_eq_drop piece new skip cs, List.drop_succ_cons]

theorem replaceAll_cons_kept {piece cs : List Char} {c : Char} (new : List Char) (h : ¬piece <+: c :: cs) :
    replaceAll piece new (c :: cs) = c :: replaceAll piece new cs := by
  rw [replaceAll, replaceFrom, if_neg (mt List.isPrefixOf_iff_prefix.1 h)]
  rfl

theorem replaceAll_of_not_infix {piece : List Char} (new : List Char) : ∀ {cs : List Char}, ¬piece <:+: cs →
    replaceAll piece new cs = cs
  | [], _ => rfl
  | c :: cs, h => by
    rw [replaceAll_cons_kept new fun hp => h hp.isInfix,
      replaceAll_of_not_infix new fun hi => h (hi.trans (List.suffix_cons c cs).isInfix)]

theorem replaceAll_piece_append {piece : List Char} (new rest : List Char) (hne : piece ≠ []) :
    replaceAll piece new (piece ++ rest) = new ++ replaceAll piece new rest := by
  obtain ⟨c, piece, rfl⟩ := List.exists_cons_of_ne_nil hne
  have hp : (c :: piece).isPrefixOf (c :: (piece ++ rest)) = true :=
    List.isPrefixOf_iff_prefix.2 (List.prefix_append (c :: piece) rest)
  rw [List.cons_append, replaceAll, replaceFrom, if_pos hp, replaceFrom_eq_drop]
  simp

end Text

/-! ## Operators -/

namespace IsOperatorWord

open Assignment (insideOperator)

variable {w : String} {before agents after : List Char} {mark : Char} (h : IsOperatorWord w before mark agents after)
include h

theorem not_mem : ('(' ∉ before ∧ '(' ∉ agents ∧ '(' ∉ after) ∧ ('\n' ∉ before ∧ '\n' ∉ agents ∧ '\n' ∉ after) ∧
    ',' ∉ before ∧ ',' ∉ after := by
  have hparenthesis := h.parenthesis
  have hnewline := h.newline
  have hcomma := h.comma
  simp only [List.mem_append, not_or, and_assoc] at hparenthesis hnewline hcomma
  exact ⟨hparenthesis, hnewline, hcomma⟩

theorem isOperator : Literals.isOperator (.word w) = true := by
  rw [Literals.isOperator, Bool.or_eq_true, h.hasBelief_iff, h.hasCommonBelief_iff]
  exact h.mark

theorem isSpelled : IsSpelled w := fun _ => ⟨before, mark, agents, after, h⟩

/-- **What is found inside an operator** is all but its mark and its last comma. -/
theorem insideOperator_eq {opening : String} (hopening : opening.toList = [mark, '(']) :
    insideOperator opening w = if agents = [] then w else String.ofList (before ++ agents ++ after) := by
  obtain ⟨⟨hbefore, hagents, hafter⟩, ⟨hbefore', hagents', hafter'⟩, -, hcomma⟩ := h.not_mem
  have hline : ∀ c ∈ w.toList, (c != '\n') = true := by
    have hmark : mark ≠ '\n' := by rcases h.mark with rfl | rfl <;> decide
    rw [h.eq]
    intro c hc
    rw [bne_iff_ne]
    rintro rfl
    simp [hmark.symm, hbefore', hagents', hafter'] at hc
  have hsplit : Text.splitFirst? [mark, '('] w.toList = some (before, agents ++ ',' :: after) := by
    rw [h.eq]
    exact Text.splitFirst?_pair h.mark_ne hbefore
  have hlast : Text.splitLast? [','] (agents ++ ',' :: after) = some (agents, after) :=
    Source.splitLast?_append hcomma agents
  rw [insideOperator, Text.unwrapLines, Text.mapStretches_of_forall hline, hopening, List.reverse_nil, List.nil_append]
  simp only [Text.bracketed?, hsplit, hlast, Option.bind_eq_bind, Option.bind_some, List.isEmpty_iff]
  by_cases hempty : agents = []
  · rw [if_pos hempty, if_pos hempty, String.ofList_toList]
  · rw [if_neg hempty, if_neg hempty]

/-- Replacing a name in the agents leaves an operator of the same kind. -/
theorem replaceAll {v o : String} (hne : v.toList ≠ []) (hmark : mark ∉ v.toList) (hv : '(' ∉ v.toList)
    (hcomma : ',' ∉ v.toList) (ho : '(' ∉ o.toList) (ho' : '\n' ∉ o.toList) (ho'' : ',' ∉ o.toList) :
    IsOperatorWord (String.ofList (Text.replaceAll v.toList o.toList w.toList))
      (Text.replaceAll v.toList o.toList before) mark (Text.replaceAll v.toList o.toList agents)
      (Text.replaceAll v.toList o.toList after) := by
  have hmem : ∀ {d : Char} {cs : List Char}, d ∉ o.toList → d ∉ cs → d ∉ Text.replaceAll v.toList o.toList cs :=
    fun hdo hd hm => (Text.mem_of_mem_replaceFrom hm).elim hdo hd
  obtain ⟨⟨hbefore, hagents, hafter⟩, ⟨hbefore', hagents', hafter'⟩, hbefore'', hafter''⟩ := h.not_mem
  constructor
  case eq =>
    have hparenthesis := Text.replaceAll_append_cons o.toList hv hne [] (agents ++ ',' :: after)
    rw [String.toList_ofList, h.eq, Text.replaceAll_append_cons _ hmark hne]
    rw [List.nil_append] at hparenthesis
    rw [hparenthesis, Text.replaceAll_append_cons _ hcomma hne]
    rfl
  case mark => exact h.mark
  all_goals simp only [List.mem_append, not_or]
  case parenthesis => exact ⟨⟨hmem ho hbefore, hmem ho hagents⟩, hmem ho hafter⟩
  case newline => exact ⟨⟨hmem ho' hbefore', hmem ho' hagents'⟩, hmem ho' hafter'⟩
  case comma => exact ⟨hmem ho'' hbefore'', hmem ho'' hafter''⟩

end IsOperatorWord

/-- The operator of one agent. -/
theorem isOperatorWord_belief {o : String} (h : '(' ∉ o.toList) (h' : '\n' ∉ o.toList) :
    IsOperatorWord ("B(" ++ o ++ ",") [] 'B' o.toList [] where
  eq := by simp
  mark := .inl rfl
  parenthesis := by simpa using h
  newline := by simpa using h'
  comma := by simp

/-- The operator of several agents whose only agent is in brackets. -/
theorem isOperatorWord_collapsed {o : String} (h : '(' ∉ o.toList) (h' : '\n' ∉ o.toList) :
    IsOperatorWord ("C([" ++ o ++ "],") [] 'C' ('[' :: (o.toList ++ [']'])) [] where
  eq := by simp
  mark := .inr rfl
  parenthesis := by simpa using h
  newline := by simpa using h'
  comma := by simp

end Epistemic
