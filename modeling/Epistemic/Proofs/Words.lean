import Epistemic.Declaration.Literal
import Epistemic.Proofs.Operators
import Epistemic.Proofs.Places
import Epistemic.Source.Scan
import Mathlib.Data.List.Basic
/-!
# The words of a text

A word that a text is read into is not empty, and if it is an operator, it is written as one: a mark, a parenthesis, and
agents behind which a comma stands (`Source.TokenClass.of_scan`).  Reading literals keeps such classes of words.
-/
namespace Epistemic
namespace Tree

mutual
/-- Every word of a tree has a property. -/
def AllWords (P : String → Prop) : Tree → Prop
  | .word w => P w
  | .list xs => AllWordsOf P xs
/-- Every word of some trees has a property. -/
def AllWordsOf (P : String → Prop) : List Tree → Prop
  | [] => True
  | x :: xs => AllWords P x ∧ AllWordsOf P xs
end

theorem allWordsOf_iff {P : String → Prop} {xs : List Tree} : AllWordsOf P xs ↔ ∀ x ∈ xs, x.AllWords P := by
  induction xs with
  | nil => simp [AllWordsOf]
  | cons x xs ih => simp [AllWordsOf, ih]

theorem allWords_list {P : String → Prop} {xs : List Tree} : (list xs).AllWords P ↔ ∀ x ∈ xs, x.AllWords P :=
  allWordsOf_iff

mutual
theorem AllWords.imp {P Q : String → Prop} (hPQ : ∀ w, P w → Q w) : ∀ {t : Tree}, t.AllWords P → t.AllWords Q
  | .word w, h => hPQ w h
  | .list _, h => AllWordsOf.imp hPQ h
theorem AllWordsOf.imp {P Q : String → Prop} (hPQ : ∀ w, P w → Q w) : ∀ {xs : List Tree},
    AllWordsOf P xs → AllWordsOf Q xs
  | [], _ => trivial
  | _ :: _, h => ⟨AllWords.imp hPQ h.1, AllWordsOf.imp hPQ h.2⟩
end

end Tree

/-- A class of words that holds every single character, and that a hyphen before a word does not leave. -/
structure WordClass (P : String → Prop) : Prop where
  char : ∀ c, P (String.ofList [c])
  hyphen : ∀ w, P w → P ("-" ++ w)

theorem Tree.AllWords.items {P : String → Prop} (hP : WordClass P) {t : Tree} (h : t.AllWords P) :
    ∀ x ∈ t.items, x.AllWords P := by
  cases t with
  | list xs => exact Tree.allWords_list.1 h
  | word w =>
    intro x hx
    obtain ⟨c, -, rfl⟩ := List.mem_map.1 hx
    exact hP.char c

/-! ## Operators -/

namespace Text

theorem mem_of_occurs {c : Char} {piece cs : List Char} (hc : c ∈ piece) (h : occurs piece cs = true) : c ∈ cs :=
  (occurs_iff_isInfix.1 h).subset hc

theorem occurs_singleton (c : Char) : ∀ cs : List Char, occurs [c] cs = true ↔ c ∈ cs
  | [] => by simp [occurs]
  | d :: cs => by
    rw [occurs, Bool.or_eq_true, occurs_singleton c cs, List.mem_cons]
    simp [List.isPrefixOf]

/-- A piece that does not begin in the first part of a text stands in the other. -/
theorem occurs_append_of_not_mem {c : Char} {piece ys : List Char} : ∀ {xs : List Char}, c ∉ xs →
    occurs (c :: piece) (xs ++ ys) = true → occurs (c :: piece) ys = true
  | [], _, h => h
  | x :: xs, hc, h => by
    rw [List.mem_cons, not_or] at hc
    rw [List.cons_append, occurs, List.isPrefixOf_cons_cons, beq_false_of_ne hc.1, Bool.false_and, Bool.false_or] at h
    exact occurs_append_of_not_mem hc.2 h

/-- A pair whose second character is not in the second part of a text stands in the first. -/
theorem occurs_pair_append {c d : Char} {ys : List Char} (hd : d ∉ ys) : ∀ {xs : List Char},
    occurs [c, d] (xs ++ ys) = true → occurs [c, d] xs = true
  | [], h => absurd (mem_of_occurs (by simp) h) hd
  | [x], h => by
    rw [List.singleton_append, occurs, Bool.or_eq_true] at h
    rcases h with h | h
    · cases ys with
      | nil => simp at h
      | cons y ys =>
        simp only [List.isPrefixOf, Bool.and_true, Bool.and_eq_true, beq_iff_eq] at h
        exact absurd (h.2 ▸ List.mem_cons_self) hd
    · exact absurd (mem_of_occurs (by simp) h) hd
  | x :: y :: xs, h => by
    rw [List.cons_append, List.cons_append, occurs, Bool.or_eq_true] at h
    rw [occurs, Bool.or_eq_true]
    refine h.imp (fun hpair => ?_) (occurs_pair_append hd)
    simpa only [List.isPrefixOf] using hpair

theorem occurs_pair_iff {c d : Char} {cs : List Char} : occurs [c, d] cs = true ↔ ∃ a b, cs = a ++ c :: d :: b := by
  refine occurs_iff_isInfix.trans (exists_congr fun a => exists_congr fun b => ?_)
  rw [List.append_assoc, eq_comm]
  rfl

theorem mem_of_mem_replaceFrom {d : Char} {piece new : List Char} {skip : Nat} {cs : List Char}
    (h : d ∈ replaceFrom piece new skip cs) : d ∈ new ∨ d ∈ cs := by
  fun_induction replaceFrom piece new skip cs with
  | case1 => exact .inr h
  | case2 skip c cs ih => exact (ih h).imp_right (List.mem_cons_of_mem c)
  | case3 c cs _ ih =>
    rcases List.mem_append.1 h with h | h
    · exact .inl h
    · exact (ih h).imp_right (List.mem_cons_of_mem c)
  | case4 c cs _ ih =>
    rcases List.mem_cons.1 h with rfl | h
    · exact .inr List.mem_cons_self
    · exact (ih h).imp_right (List.mem_cons_of_mem c)

end Text

/-- A word that is written as an operator: its mark with what stands before it, and its agents, up to the last comma. -/
structure IsOperatorWord (w : String) (before : List Char) (mark : Char) (agents after : List Char) : Prop where
  eq : w.toList = before ++ mark :: '(' :: (agents ++ ',' :: after)
  mark : mark = 'B' ∨ mark = 'C'
  parenthesis : '(' ∉ before ++ agents ++ after
  newline : '\n' ∉ before ++ agents ++ after
  comma : ',' ∉ before ++ after

/-- A word that is no operator, or is written as one. -/
def IsSpelled (w : String) : Prop :=
  Literals.isOperator (.word w) = true → ∃ before mark agents after, IsOperatorWord w before mark agents after

theorem parenthesis_mem_of_isOperator {w : String} (h : Literals.isOperator (.word w) = true) : '(' ∈ w.toList := by
  rw [Literals.isOperator, Bool.or_eq_true] at h
  exact h.elim (Text.mem_of_occurs (by decide)) (Text.mem_of_occurs (by decide))

theorem IsSpelled.of_not_mem {w : String} (h : '(' ∉ w.toList) : IsSpelled w :=
  fun hop => absurd (parenthesis_mem_of_isOperator hop) h

namespace IsOperatorWord

variable {w : String} {before agents after : List Char} {mark : Char} (h : IsOperatorWord w before mark agents after)
include h

theorem mark_ne : mark ≠ '(' := by
  rcases h.mark with rfl | rfl <;> decide

/-- Which operator it is, is said by its mark. -/
theorem occurs_iff (m : Char) : Text.occurs [m, '('] w.toList = true ↔ m = mark := by
  rw [Text.occurs_pair_iff, h.eq]
  constructor
  · rintro ⟨a, b, hab⟩
    have hparenthesis := h.parenthesis
    simp only [List.mem_append, not_or] at hparenthesis
    have hbefore : '(' ∉ before ++ [mark] := by simp [hparenthesis, h.mark_ne.symm]
    have hbehind : '(' ∉ agents ++ ',' :: after := by simp [hparenthesis]
    have hsplit : (before ++ [mark]) ++ '(' :: (agents ++ ',' :: after) = (a ++ [m]) ++ '(' :: b := by simpa using hab
    -- the word has one parenthesis, so what stands before it is the same
    have heq := ((List.append_cons_inj_of_notMem hbefore hbehind).1 hsplit).1
    simpa using (List.append_inj' heq.symm rfl).2
  · rintro rfl
    exact ⟨before, agents ++ ',' :: after, rfl⟩

theorem hasBelief_iff : (Tree.word w).hasBelief = true ↔ mark = 'B' := (h.occurs_iff 'B').trans eq_comm

theorem hasCommonBelief_iff : (Tree.word w).hasCommonBelief = true ↔ mark = 'C' := (h.occurs_iff 'C').trans eq_comm

end IsOperatorWord

theorem isSpelled_hyphen {w : String} (h : IsSpelled w) : IsSpelled ("-" ++ w) := by
  intro hop
  have hlist : ("-" ++ w).toList = ['-'] ++ w.toList := by rw [String.toList_append]; rfl
  have hw : Literals.isOperator (.word w) = true := by
    simp only [Literals.isOperator, Tree.hasBelief, Tree.hasCommonBelief, Tree.mentions, Bool.or_eq_true,
      hlist] at hop ⊢
    exact hop.imp (Text.occurs_append_of_not_mem (by decide)) (Text.occurs_append_of_not_mem (by decide))
  obtain ⟨before, mark, agents, after, hform⟩ := h hw
  refine ⟨'-' :: before, mark, agents, after, ⟨?_, hform.mark, ?_, ?_, ?_⟩⟩
  · rw [hlist, hform.eq]
    rfl
  · simpa using hform.parenthesis
  · simpa using hform.newline
  · simpa using hform.comma

theorem wordClass_isSpelled : WordClass IsSpelled where
  char c := by
    intro hop
    simp [Literals.isOperator, Tree.hasBelief, Tree.hasCommonBelief, Tree.mentions, Text.occurs, List.isPrefixOf] at hop
  hyphen _ := isSpelled_hyphen

/-- A word that a text is read into: it is not empty, and spelled. -/
def IsScanned (w : String) : Prop := w ≠ "" ∧ IsSpelled w

theorem ofList_ne_empty {cs : List Char} (h : cs ≠ []) : String.ofList cs ≠ "" := by
  rwa [ne_eq, ← String.toList_inj, String.toList_ofList]

theorem append_ne_empty {a b : String} (h : a ≠ "") : a ++ b ≠ "" := by
  intro hab
  have hlist := congrArg String.toList hab
  rw [String.toList_append] at hlist
  exact h (String.toList_inj.1 (List.append_eq_nil_iff.1 hlist).1)

theorem append_ne_empty_right {a b : String} (h : b ≠ "") : a ++ b ≠ "" := by
  intro hab
  have hlist := congrArg String.toList hab
  rw [String.toList_append] at hlist
  exact h (String.toList_inj.1 (List.append_eq_nil_iff.1 hlist).2)

theorem Tree.shown_ne_empty {t : Tree} (h : t ≠ .word "") : t.shown ≠ "" := by
  cases t with
  | word w => exact fun hw => h (congrArg Tree.word hw)
  | list ts =>
    unfold Tree.shown Tree.shownInside
    exact append_ne_empty_right (by decide)

theorem wordClass_isScanned : WordClass IsScanned where
  char c := ⟨ofList_ne_empty (List.cons_ne_nil c []), wordClass_isSpelled.char c⟩
  hyphen _ h := ⟨append_ne_empty (by decide), isSpelled_hyphen h.2⟩

/-! ## Scanning -/

namespace Source

/-- A word between marks and white space. -/
structure IsTokenWord (w : String) : Prop where
  nonempty : w ≠ ""
  parenthesis : '(' ∉ w.toList
  newline : '\n' ∉ w.toList

/-- A word that a text is cut into has no parenthesis of either kind. -/
structure IsTextWord (w : String) : Prop extends IsTokenWord w where
  closing : ')' ∉ w.toList

theorem mark?_ne_word (c : Char) (w : String) : mark? c ≠ some (.word w) := by
  unfold mark?
  repeat' split
  all_goals simp

theorem isTextWord_of_finished {w : String} {letters : List Char}
    (hletters : '(' ∉ letters ∧ ')' ∉ letters ∧ '\n' ∉ letters) (h : .word w ∈ finishedWord letters) :
    IsTextWord w := by
  unfold finishedWord at h
  split at h
  · cases h
  · rename_i hne
    rw [List.mem_singleton, Token.word.injEq] at h
    subst h
    exact ⟨⟨ofList_ne_empty (by simpa using hne), by simpa using hletters.1, by simpa using hletters.2.2⟩,
      by simpa using hletters.2.1⟩

theorem isTextWord_of_mem {w : String} : ∀ {cs letters : List Char}, '(' ∉ letters ∧ ')' ∉ letters ∧ '\n' ∉ letters →
    .word w ∈ tokensFrom letters cs → IsTextWord w
  | [], letters, hletters, h => isTextWord_of_finished hletters h
  | c :: cs, letters, hletters, h => by
    unfold tokensFrom at h
    split at h
    · rename_i t hmark
      rcases List.mem_append.1 h with h | h
      · exact isTextWord_of_finished hletters h
      · rcases List.mem_cons.1 h with rfl | h
        · exact absurd hmark (mark?_ne_word c w)
        · exact isTextWord_of_mem (by simp) h
    · rename_i hmark
      split at h
      · rcases List.mem_append.1 h with h | h
        · exact isTextWord_of_finished hletters h
        · exact isTextWord_of_mem (by simp) h
      · rename_i hblank
        refine isTextWord_of_mem ?_ h
        have hopen : '(' ≠ c := by
          rintro rfl
          simp [mark?] at hmark
        have hclose : ')' ≠ c := by
          rintro rfl
          simp [mark?] at hmark
        have hline : '\n' ≠ c := by
          rintro rfl
          exact hblank (by decide)
        simp [hopen, hclose, hline, hletters]

namespace Nest

/-- An operator in the making: nothing that has a parenthesis, or a mark with agents behind it. -/
def IsBegun (operator : String) : Prop :=
  '(' ∉ operator.toList ∨ ∃ mark agents, operator.toList = mark :: '(' :: agents ∧ (mark = 'B' ∨ mark = 'C') ∧
    '(' ∉ agents ∧ '\n' ∉ agents

theorem IsBegun.append {operator text : String} (h : IsBegun operator) (hopen : '(' ∉ text.toList)
    (hline : '\n' ∉ text.toList) : IsBegun (operator ++ text) := by
  rcases h with h | ⟨mark, agents, heq, hmark, hagents, hagents'⟩
  · exact .inl (by rw [String.toList_append, List.mem_append, not_or]; exact ⟨h, hopen⟩)
  · refine .inr ⟨mark, agents ++ text.toList, ?_, hmark, ?_, ?_⟩
    · rw [String.toList_append, heq]
      rfl
    · rw [List.mem_append, not_or]; exact ⟨hagents, hopen⟩
    · rw [List.mem_append, not_or]; exact ⟨hagents', hline⟩

/-- An operator that is finished is a word, and may be taken up again. -/
structure IsFinished (text : String) : Prop where
  begun : IsBegun text
  scanned : IsScanned text

theorem IsFinished.of_agents {text : String} {mark : Char} {agents : List Char}
    (heq : text.toList = mark :: '(' :: (agents ++ [','])) (hmark : mark = 'B' ∨ mark = 'C') (hopen : '(' ∉ agents)
    (hline : '\n' ∉ agents) : IsFinished text where
  begun := .inr ⟨mark, agents ++ [','], heq, hmark, by simp [hopen], by simp [hline]⟩
  scanned := by
    refine ⟨?_, fun _ => ⟨[], mark, agents, [], ⟨heq, hmark, by simpa using hopen, by simpa using hline, by simp⟩⟩⟩
    rintro rfl
    cases heq

/-- The word of an operator in the making, which names one agent or several. -/
def finished (operator : String) (several : Bool) : String :=
  if several then String.ofList (Text.replaceAll "B(".toList "C(".toList (operator ++ ",").toList) else operator ++ ","

theorem finished_ne_empty (operator : String) (several : Bool) : finished operator several ≠ "" := by
  unfold finished
  split
  · refine ofList_ne_empty fun hnil => ?_
    cases htext : (operator ++ ",").toList with
    | nil => simp at htext
    | cons c cs =>
      rw [htext, Text.replaceAll, Text.replaceFrom] at hnil
      split at hnil <;> simp at hnil
  · intro hempty
    have := congrArg String.toList hempty
    simp at this

theorem IsBegun.finish {operator : String} (h : IsBegun operator) (several : Bool) :
    IsFinished (finished operator several) := by
  unfold finished
  have htext : (operator ++ ",").toList = operator.toList ++ [','] := by rw [String.toList_append]; rfl
  rcases h with h | ⟨mark, agents, heq, hmark, hopen, hline⟩
  · have hnone : '(' ∉ (operator ++ ",").toList := by simp [htext, h]
    have hsame : Text.replaceAll "B(".toList "C(".toList (operator ++ ",").toList = (operator ++ ",").toList :=
      Text.replaceFrom_of_not_mem (by decide) hnone
    have hplain : IsFinished (operator ++ ",") := by
      refine ⟨.inl hnone, fun hempty => ?_, .of_not_mem hnone⟩
      rw [hempty] at htext
      simp at htext
    rw [hsame, String.ofList_toList]
    cases several <;> exact hplain
  · have hagents : '(' ∉ agents ++ [','] := by simp [hopen]
    cases several with
    | false =>
      refine .of_agents ?_ hmark hopen hline
      rw [if_neg (by decide), htext, heq]
      rfl
    | true =>
      refine .of_agents ?_ (.inr rfl) hopen hline
      rw [if_pos rfl, String.toList_ofList, htext, heq]
      rcases hmark with rfl | rfl
      · exact replaceAll_belief (agents ++ [',']) hagents
      · show 'C' :: '(' :: Text.replaceFrom ['B', '('] ['C', '('] 0 (agents ++ [',']) = 'C' :: '(' :: (agents ++ [','])
        rw [Text.replaceFrom_of_not_mem (by decide : '(' ∈ ['B', '(']) hagents]

end Nest

theorem isTextWord_comma : IsTextWord "," := ⟨⟨by decide, by decide, by decide⟩, by decide⟩

/-- Classes of words and of operators in the making that nesting tokens does not leave, if the words among the tokens
are in a class. -/
structure TokenClass (T P B : String → Prop) : Prop where
  comma : T ","
  word : ∀ w, T w → P w
  empty : B ""
  belief : B "B("
  append : ∀ operator text, B operator → T text → B (operator ++ text)
  finish : ∀ operator several, B operator → P (Nest.finished operator several) ∧ B (Nest.finished operator several)

theorem tokenClass_isScanned : TokenClass IsTextWord IsScanned Nest.IsBegun where
  comma := isTextWord_comma
  word _ hw := ⟨hw.nonempty, .of_not_mem hw.parenthesis⟩
  empty := .inl (by decide)
  belief := .inr ⟨'B', [], by decide, .inl rfl, by simp, by simp⟩
  append _ _ h htext := h.append htext.parenthesis htext.newline
  finish _ several h := ⟨(h.finish several).scanned, (h.finish several).begun⟩

/-- A word that has letters and stands on one line. -/
def IsOnLine (w : String) : Prop := w ≠ "" ∧ '\n' ∉ w.toList

theorem tokenClass_isOnLine : TokenClass IsTextWord IsOnLine fun operator => '\n' ∉ operator.toList where
  comma := isTextWord_comma
  word _ hw := ⟨hw.nonempty, hw.newline⟩
  empty := by decide
  belief := by decide
  append _ _ h htext := by
    rw [String.toList_append, List.mem_append, not_or]
    exact ⟨h, htext.newline⟩
  finish operator several h := by
    have hline : '\n' ∉ (Nest.finished operator several).toList := by
      have hcomma : '\n' ∉ (operator ++ ",").toList := by simpa using h
      cases several with
      | false => exact hcomma
      | true =>
        rw [Nest.finished, if_pos rfl, String.toList_ofList]
        exact fun hmem => (Text.mem_of_mem_replaceFrom hmem).elim (by decide) hcomma
    exact ⟨⟨Nest.finished_ne_empty operator several, hline⟩, hline⟩

namespace Nest

section
variable {T P B : String → Prop}

/-- The words so far and the operator in the making are in the classes. -/
structure Within (P B : String → Prop) (n : Nest) : Prop where
  items : ∀ t ∈ n.items, t.AllWords P
  outer : ∀ ts ∈ n.outer, ∀ t ∈ ts, t.AllWords P
  operator : B n.operator

variable (hclass : TokenClass T P B)
include hclass

/-- **One token does not leave the classes.** -/
theorem Within.step {n m : Nest} (h : n.Within P B) {t : Token} (ht : ∀ w, t = .word w → T w)
    (hstep : n.step t = .ok m) : m.Within P B := by
  cases t with
  | openList =>
    cases hstep
    exact ⟨by simp, List.forall_mem_cons.2 ⟨h.items, h.outer⟩, h.operator⟩
  | closeList =>
    rw [Nest.step] at hstep
    split at hstep
    · cases hstep
    · rename_i around outer heq
      cases hstep
      have houter := h.outer
      rw [heq] at houter
      obtain ⟨haround, houter⟩ := List.forall_mem_cons.1 houter
      refine ⟨List.forall_mem_cons.2 ⟨Tree.allWords_list.2 fun x hx => ?_, haround⟩, houter, h.operator⟩
      exact h.items x (List.mem_reverse.1 hx)
  | openAgents =>
    cases hstep
    exact ⟨h.items, h.outer, hclass.belief⟩
  | closeAgents =>
    cases hstep
    obtain ⟨hword, hbegun⟩ := hclass.finish n.operator n.several h.operator
    exact ⟨List.forall_mem_cons.2 ⟨hword, h.items⟩, h.outer, hbegun⟩
  | word w =>
    have hw := ht w rfl
    rw [Nest.step] at hstep
    split at hstep
    · cases hstep
      refine ⟨h.items, h.outer, ?_⟩
      split
      · exact hclass.append _ _ h.operator hw
      · have hcomma := hclass.append _ "," h.operator hclass.comma
        exact hclass.append _ _ hcomma hw
    · cases hstep
      exact ⟨List.forall_mem_cons.2 ⟨hclass.word w hw, h.items⟩, h.outer, h.operator⟩

theorem Within.run : ∀ {ts : List Token} {n m : Nest}, n.Within P B → (∀ w, .word w ∈ ts → T w) →
    run ts n = .ok m → m.Within P B
  | [], n, m, h, _, hrun => by
    cases hrun
    exact h
  | t :: ts, n, m, h, hts, hrun => by
    unfold Nest.run at hrun
    split at hrun
    · rename_i k hstep
      exact (h.step hclass (fun w hw => hts w (hw ▸ List.mem_cons_self)) hstep).run
        (fun w hw => hts w (List.mem_cons_of_mem t hw)) hrun
    · cases hrun

end
end Nest

/-- **The words of a tree that tokens make are in the class.** -/
theorem TokenClass.of_nest {T P B : String → Prop} (hclass : TokenClass T P B) {ts : List Token} {t : Tree}
    (hts : ∀ w, .word w ∈ ts → T w) (h : nest ts = .ok t) : t.AllWords P := by
  unfold nest at h
  split at h
  · rename_i n hrun
    have hn : n.Within P B := Nest.Within.run hclass ⟨by simp, by simp, hclass.empty⟩ hts hrun
    unfold Nest.finish at h
    split at h
    · cases h
    · rename_i u hitems
      cases h
      exact hn.items t (hitems ▸ List.mem_cons_self)
    · cases h
  · cases h

/-- **The words of a tree that a text is read into are in the class.** -/
theorem TokenClass.of_scan {P B : String → Prop} (hclass : TokenClass IsTextWord P B) {dialect : Dialect}
    {text : String} {t : Tree} (h : scan dialect text = .ok t) : t.AllWords P :=
  hclass.of_nest (fun _ hw => isTextWord_of_mem (by simp) hw) h

end Source

/-! ## Literals -/

namespace Literals

section
variable {P : String → Prop} (hP : WordClass P)
include hP

theorem allWords_drawIn {operator formula g : Tree} {inner : List Tree} (hop : operator.AllWords P)
    (hf : formula.AllWords P) (hitems : formula.items ≠ []) (hinner : ∀ t ∈ inner, t.AllWords P)
    (h : drawIn operator formula inner = .ok g) : g.AllWords P ∧ g.items ≠ [] := by
  unfold drawIn at h
  split at h
  · cases h
  · split at h
    · split at h
      · cases h
      · rename_i keyword rest hkeyword atom more
        have hatom : ∀ x ∈ atom.items, x.AllWords P := (hinner atom (by simp)).items hP
        split at h
        · cases h
        · cases h
        · rename_i name args hargs
          cases h
          rw [hargs] at hatom
          obtain ⟨hname, hargs⟩ := List.forall_mem_cons.1 hatom
          refine ⟨Tree.allWords_list.2 ?_, List.cons_ne_nil _ _⟩
          exact List.forall_mem_cons.2 ⟨hop, List.forall_mem_cons.2 ⟨hP.hyphen name hname, hargs⟩⟩
    · cases h
      exact ⟨hf, hitems⟩

theorem allWords_normalForm {formula g : Tree} (hf : formula.AllWords P) (h : normalForm formula = .ok g) :
    g.AllWords P ∧ g.items ≠ [] := by
  unfold normalForm at h
  split at h
  · cases h
  · rename_i head rest hitems
    have hne : formula.items ≠ [] := hitems ▸ List.cons_ne_nil head rest
    have hall := hf.items hP
    rw [hitems] at hall
    obtain ⟨hhead, hrest⟩ := List.forall_mem_cons.1 hall
    split at h
    · split at h
      · cases h
      · rename_i inner more
        exact allWords_drawIn hP hhead hf hne (Tree.allWords_list.1 (hrest _ List.mem_cons_self)) h
      · cases h
        exact ⟨hf, hne⟩
    · cases h
      exact ⟨hf, hne⟩

/-- All words of the literals have a property, and those that hold have words. -/
structure AllWords (P : String → Prop) (ls : Literals) : Prop where
  positive : ∀ t ∈ ls.positive, t.AllWords P ∧ t.items ≠ []
  negative : ∀ t ∈ ls.negative, t.AllWords P

theorem AllWords.add {ls ls' : Literals} (h : ls.AllWords P) {place : String} {t : Tree} (ht : t.AllWords P)
    (hadd : ls.add place t = .ok ls') : ls'.AllWords P := by
  unfold Literals.add at hadd
  split at hadd
  · cases hadd
  · rename_i formula hform
    obtain ⟨hformula, hne⟩ := allWords_normalForm hP ht hform
    split at hadd
    · cases hadd
    · rename_i head rest hitems
      split at hadd
      · split at hadd
        · rename_i atom
          cases hadd
          have hatom : atom.AllWords P := hformula.items hP atom (hitems ▸ by simp)
          exact ⟨h.positive, List.forall_mem_append.2 ⟨h.negative, by simpa using hatom⟩⟩
        · cases hadd
      · cases hadd
        exact ⟨List.forall_mem_append.2 ⟨h.positive, by simpa using ⟨hformula, hne⟩⟩, h.negative⟩

theorem AllWords.addAll {place : String} : ∀ {ts : List Tree} {ls : Literals}, ls.AllWords P →
    (∀ t ∈ ts, t.AllWords P) → (addAll place ts ls).1.AllWords P
  | [], ls, h, _ => h
  | t :: ts, ls, h, hts => by
    obtain ⟨ht, hts⟩ := List.forall_mem_cons.1 hts
    unfold Literals.addAll
    split
    · rename_i ls' hadd
      exact AllWords.addAll (h.add hP ht hadd) hts
    · exact h

/-- **Literals hold no other words than what they are read from**, but for hyphens. -/
theorem AllWords.split {place : String} {ls : Literals} {t : Tree} (h : ls.AllWords P) (ht : t.AllWords P) :
    (Literals.split place ls t).literals.AllWords P := by
  unfold Literals.split
  split
  · exact h
  · exact h
  · split
    · exact h.addAll hP (List.forall_mem_cons.1 (Tree.allWords_list.1 ht)).2
    · exact h.addAll hP (by simpa using ht)

end
end Literals
end Epistemic
