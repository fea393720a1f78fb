import Epistemic.Proofs.Operators
import Epistemic.Proofs.Rules
import Epistemic.Source.Scan
/-!
# Rendering and reading back

A tree is written with its items separated by single blanks, and with the agents of an operator in brackets
(`render`).  No rule of writing matches anything in a tree that was written so, unless one of its lists holds nothing
but a list of words, and the tokens nest to the tree again.
-/
namespace Epistemic.Source

open Text (isBlank)

/-! ## What is rendered -/

/-- A character that may stand in a word: not a blank, a mark or a semicolon, and its own lower-case form. -/
def isWordChar (c : Char) : Bool :=
  !isBlank c && (mark? c).isNone && c != ';' && Text.lower [c] == [c]

/-- A word as a planning file may hold it. -/
def IsPlainWord (w : String) : Prop := w.toList ≠ [] ∧ ∀ c ∈ w.toList, isWordChar c = true

instance (w : String) : Decidable (IsPlainWord w) :=
  decidable_of_iff (w.toList ≠ [] ∧ w.toList.all isWordChar = true) (and_congr_right fun _ => List.all_eq_true)

/-- The name of an agent, which holds no comma and does not end in a type. -/
def IsAgentName (a : String) : Prop :=
  IsPlainWord a ∧ ',' ∉ a.toList ∧ ¬ "-agent".toList <:+ a.toList

instance (a : String) : Decidable (IsAgentName a) := inferInstanceAs (Decidable (_ ∧ _ ∧ _))

/-- A word of a tree: a plain one, or the operator of one or more agents. -/
def IsLeaf (w : String) : Prop :=
  IsPlainWord w ∨ ∃ agents, agents ≠ [] ∧ (∀ a ∈ agents, IsAgentName a) ∧ w = operatorName agents

/-- A word as it is written.  The agents of an operator stand in brackets, with blanks for the commas between them. -/
def renderWord (w : List Char) : List Char :=
  if '(' ∈ w then '[' :: ((w.drop 2).dropLast.map (fun c => if c = ',' then ' ' else c) ++ [']']) else w

mutual
/-- A tree as it is written. -/
def render : Tree → List Char
  | .word w => renderWord w.toList
  | .list ts => '(' :: (renderItems ts ++ [')'])
/-- Trees as they are written, with single blanks between them. -/
def renderItems : List Tree → List Char
  | [] => []
  | [t] => render t
  | t :: u :: ts => render t ++ ' ' :: renderItems (u :: ts)
end

mutual
/-- A tree that can be written: its words are plain or operators, and none of its lists consists of exactly one item
that is itself a list of words, and not empty. -/
def Renderable : Tree → Prop
  | .word w => IsLeaf w
  | .list ts => (∀ us, ts = [.list us] → us = [] ∨ ∃ u ∈ us, u.isList = true) ∧ RenderableItems ts
/-- Trees that can be written. -/
def RenderableItems : List Tree → Prop
  | [] => True
  | t :: ts => Renderable t ∧ RenderableItems ts
end

/-! ## Words -/

theorem isWordChar_iff {c : Char} : isWordChar c = true ↔
    isBlank c = false ∧ mark? c = none ∧ c ≠ ';' ∧ Text.lower [c] = [c] := by
  unfold isWordChar
  simp only [Bool.and_eq_true, Bool.not_eq_true', Option.isNone_iff_eq_none, bne_iff_ne, beq_iff_eq, and_assoc]

theorem lower_of_isWordChar {c : Char} (h : isWordChar c = true) : c ≠ '\r' ∧ c ≠ ';' ∧ Text.lower [c] = [c] := by
  obtain ⟨hblank, -, hcomment, hlower⟩ := isWordChar_iff.1 h
  refine ⟨?_, hcomment, hlower⟩
  rintro rfl
  exact absurd hblank (by decide)

theorem IsPlainWord.ne_of_mem {w : String} (h : IsPlainWord w) {c d : Char} (hc : c ∈ w.toList)
    (hd : isWordChar d = false) : c ≠ d := by
  rintro rfl
  rw [h.2 c hc] at hd
  cases hd

theorem IsPlainWord.not_mem {w : String} (h : IsPlainWord w) {d : Char} (hd : isWordChar d = false) : d ∉ w.toList :=
  fun hm => h.ne_of_mem hm hd rfl

theorem map_comma_of_not_mem : ∀ {cs : List Char}, ',' ∉ cs → cs.map (fun c => if c = ',' then ' ' else c) = cs
  | [], _ => rfl
  | c :: cs, h => by
    rw [List.mem_cons, not_or] at h
    rw [List.map_cons, if_neg (Ne.symm h.1), map_comma_of_not_mem h.2]

theorem map_comma_intercalate : ∀ {ls : List (List Char)}, (∀ l ∈ ls, ',' ∉ l) →
    ([','].intercalate ls).map (fun c => if c = ',' then ' ' else c) = [' '].intercalate ls
  | [], _ => rfl
  | [l], h => by
    rw [List.intercalate_singleton, List.intercalate_singleton, map_comma_of_not_mem (h l List.mem_cons_self)]
  | l :: k :: ls, h => by
    rw [List.intercalate_cons_cons, List.intercalate_cons_cons, List.map_append, List.map_append,
      map_comma_of_not_mem (h l List.mem_cons_self),
      map_comma_intercalate fun m hm => h m (List.mem_cons_of_mem l hm)]
    rfl

/-- What stands in the brackets of an operator. -/
def agentText (agents : List String) : List Char := [' '].intercalate (agents.map String.toList)

theorem renderWord_plain {w : String} (h : IsPlainWord w) : renderWord w.toList = w.toList := by
  rw [renderWord, if_neg (h.not_mem (by decide))]

theorem operatorName_toList (agents : List String) : ∃ x, (operatorName agents).toList =
    x :: '(' :: ([','].intercalate (agents.map String.toList) ++ [',']) := by
  refine ⟨if agents.length ≤ 1 then 'B' else 'C', ?_⟩
  unfold operatorName
  rw [String.toList_append, String.toList_append, String.toList_intercalate]
  split <;> rfl

/-- **An operator is written as its agents in brackets.** -/
theorem renderWord_operator {agents : List String} (h : ∀ a ∈ agents, IsAgentName a) :
    renderWord (operatorName agents).toList = '[' :: (agentText agents ++ [']']) := by
  obtain ⟨x, hx⟩ := operatorName_toList agents
  have hcomma : ∀ l ∈ agents.map String.toList, ',' ∉ l := by
    intro l hl
    obtain ⟨a, ha, rfl⟩ := List.mem_map.1 hl
    exact (h a ha).2.1
  rw [renderWord, hx, if_pos (by simp), List.drop_succ_cons, List.drop_succ_cons, List.drop_zero, List.dropLast_concat,
    map_comma_intercalate hcomma, agentText]

theorem agentText_not_mem {ws : List String} (h : ∀ w ∈ ws, IsPlainWord w) {d : Char} (hd : isWordChar d = false)
    (hblank : d ≠ ' ') : d ∉ agentText ws :=
  not_mem_intercalate_toList (by simpa using hblank) fun w hw => (h w hw).not_mem hd

/-! ## Characters -/

/-- The marks and the blank that rendering writes between words. -/
def isLayout (c : Char) : Bool := c == '(' || c == ')' || c == '[' || c == ']' || c == ' '

theorem renderWord_chars {w : String} (h : IsLeaf w) : ∀ c ∈ renderWord w.toList, isWordChar c || isLayout c := by
  intro c hc
  rcases h with h | ⟨agents, -, hagents, rfl⟩
  · rw [renderWord_plain h] at hc
    rw [h.2 c hc, Bool.true_or]
  · rw [renderWord_operator hagents] at hc
    by_cases hlayout : isLayout c = true
    · rw [hlayout, Bool.or_true]
    · rw [Bool.or_eq_true]
      refine .inl (Bool.of_not_eq_false fun hword => ?_)
      have hne : c ≠ ' ' ∧ c ≠ '[' ∧ c ≠ ']' := by
        refine ⟨?_, ?_, ?_⟩ <;> rintro rfl <;> exact hlayout (by decide)
      rcases List.mem_cons.1 hc with hb | hc
      · exact hne.2.1 hb
      · rcases List.mem_append.1 hc with hc | hc
        · exact agentText_not_mem (fun a ha => (hagents a ha).1) hword hne.1 hc
        · exact hne.2.2 (List.mem_singleton.1 hc)

mutual
theorem render_chars : ∀ {t : Tree}, Renderable t → ∀ c ∈ render t, isWordChar c || isLayout c
  | .word w, h, c, hc => renderWord_chars h c hc
  | .list ts, h, c, hc => by
    rcases List.mem_cons.1 hc with rfl | hc
    · rfl
    · rcases List.mem_append.1 hc with hc | hc
      · exact renderItems_chars h.2 c hc
      · rw [List.mem_singleton.1 hc]; rfl
theorem renderItems_chars : ∀ {ts : List Tree}, RenderableItems ts → ∀ c ∈ renderItems ts, isWordChar c || isLayout c
  | [], _, _, hc => by cases hc
  | [t], h, c, hc => render_chars h.1 c hc
  | t :: u :: ts, h, c, hc => by
    rw [renderItems] at hc
    rcases List.mem_append.1 hc with hc | hc
    · exact render_chars h.1 c hc
    · rcases List.mem_cons.1 hc with rfl | hc
      · rfl
      · exact renderItems_chars h.2 c hc
end

theorem unifyNewlines_eq_self : ∀ {cs : List Char}, '\r' ∉ cs → unifyNewlines cs = cs
  | [], _ => rfl
  | c :: cs, h => by
    rw [List.mem_cons, not_or] at h
    rw [unifyNewlines, unifyNewlines_eq_self h.2]
    · exact fun _ hc _ => h.1 hc.symm
    · exact fun hc => h.1 hc.symm

theorem stripCommentsFrom_eq_self : ∀ {cs : List Char}, ';' ∉ cs → stripCommentsFrom false cs = cs
  | [], _ => rfl
  | c :: cs, h => by
    rw [List.mem_cons, not_or] at h
    unfold stripCommentsFrom
    rw [stripCommentsFrom_eq_self h.2]
    split
    · rfl
    · rw [if_neg (by simpa using Ne.symm h.1)]

theorem lowerFrom_eq_self : ∀ {cs : List Char}, (∀ c ∈ cs, Text.lower [c] = [c]) → ∀ b, Text.lowerFrom b cs = cs
  | [], _, _ => rfl
  | c :: cs, h, b => by
    have hc := h c List.mem_cons_self
    rw [Text.lowerFrom, lowerFrom_eq_self fun x hx => h x (List.mem_cons_of_mem c hx)]
    unfold Text.lower Text.lowerFrom at hc
    split at hc
    · rename_i hsigma
      rw [beq_iff_eq] at hsigma
      subst hsigma
      exact absurd hc (by decide)
    · rename_i hsigma
      rw [if_neg hsigma]
      rw [Text.lowerFrom, List.append_nil] at hc
      rw [hc, List.singleton_append]

theorem plain_eq_self {cs : List Char} (h : ∀ c ∈ cs, c ≠ '\r' ∧ c ≠ ';' ∧ Text.lower [c] = [c]) :
    plain (unifyNewlines cs) = cs := by
  rw [unifyNewlines_eq_self fun hc => (h _ hc).1 rfl, plain, stripComments,
    stripCommentsFrom_eq_self fun hc => (h _ hc).2.1 rfl, Text.lower, lowerFrom_eq_self fun c hc => (h c hc).2.2]

/-- **A rendered text has no comments, one way to end a line and no capital letters.** -/
theorem plain_of_chars {cs : List Char} (h : ∀ c ∈ cs, isWordChar c || isLayout c) :
    plain (unifyNewlines cs) = cs := by
  refine plain_eq_self fun c hc => ?_
  rcases Bool.or_eq_true _ _ ▸ h c hc with hw | hl
  · exact lower_of_isWordChar hw
  · simp only [isLayout, Bool.or_eq_true, beq_iff_eq] at hl
    rcases hl with (((rfl | rfl) | rfl) | rfl) | rfl <;> decide

/-! ## Rules that match nothing -/

/-- The rule matches nowhere in the text. -/
def Still (rule : Rule) : List Char → Prop
  | [] => True
  | c :: cs => rule (c :: cs) = none ∧ Still rule cs

theorem Still.passes {rule : Rule} : ∀ {cs : List Char}, Still rule cs → Passes rule cs cs 0
  | [], _ => .nil
  | _ :: _, h => .keep h.1 (Still.passes h.2)

theorem Still.pass_eq {rule : Rule} (hrule : rule.Consumes) {cs : List Char} (h : Still rule cs) :
    pass rule cs = (cs, 0) := by
  obtain ⟨h₁, h₂⟩ := (passes_pass hrule cs).unique h.passes
  exact Prod.ext h₁ h₂

theorem still_append {rule : Rule} {x : Char} (hrule : ∀ c cs, c ≠ x → rule (c :: cs) = none) {k : List Char}
    (hk : Still rule k) : ∀ {w : List Char}, x ∉ w → Still rule (w ++ k)
  | [], _ => hk
  | c :: w, h => by
    rw [List.mem_cons, not_or] at h
    exact ⟨hrule c _ (Ne.symm h.1), still_append hrule hk h.2⟩

/-! ## Brackets -/

/-- What may stand behind an item: a blank or a closing parenthesis, and no bracket closed before one is opened. -/
structure Follows (k : List Char) : Prop where
  delimited : ∀ c ∈ k.head?, c = ' ' ∨ c = ')'
  brackets : ']' ∉ k.takeWhile (· != '[')

theorem agentText_last : ∀ {agents : List String}, agents ≠ [] → ∃ a ∈ agents, ∃ before,
    agentText agents = before ++ a.toList ∧ (before = [] ∨ ∃ b, before = b ++ [' '])
  | [], h => absurd rfl h
  | [a], _ => ⟨a, List.mem_cons_self, [], by simp [agentText], .inl rfl⟩
  | a :: b :: agents, _ => by
    obtain ⟨c, hc, before, htext, hbefore⟩ := @agentText_last (b :: agents) (by simp)
    refine ⟨c, List.mem_cons_of_mem a hc, a.toList ++ ' ' :: before, ?_, .inr ?_⟩
    · unfold agentText at htext ⊢
      rw [List.map_cons, List.map_cons, List.intercalate_cons_cons, ← List.map_cons, htext]
      simp
    · rcases hbefore with rfl | ⟨d, rfl⟩
      · exact ⟨a.toList, rfl⟩
      · exact ⟨a.toList ++ ' ' :: d, by simp⟩

/-- Agents of which none ends in a type do not end in one together. -/
theorem agentText_no_type {agents : List String} (hne : agents ≠ []) (h : ∀ a ∈ agents, IsAgentName a)
    (before blanks : List Char) (hblanks : ∀ c ∈ blanks, isBlank c = true) :
    agentText agents ≠ before ++ ("-agent".toList ++ blanks) := by
  intro htext
  obtain ⟨a, ha, pre, hpre, hsep⟩ := agentText_last hne
  have haname := h a ha
  rw [hpre] at htext
  have hnil : blanks = [] := by
    rcases List.eq_nil_or_concat blanks with hb | ⟨b, c, hb⟩
    · exact hb
    · -- the last character is one of a name, and no blank
      have hlast := congrArg List.getLast? htext
      rw [hb, List.concat_eq_append, ← List.append_assoc, ← List.append_assoc, List.getLast?_concat,
        List.getLast?_append, Option.or_of_isSome (by simpa using haname.1.1)] at hlast
      have hword := haname.1.2 c (List.mem_of_getLast? hlast)
      rw [isWordChar_iff, hblanks c (by rw [hb]; simp)] at hword
      exact absurd hword.1 (by simp)
  rw [hnil, List.append_nil] at htext
  have htype : "-agent".toList <:+ pre ++ a.toList := ⟨before, htext.symm⟩
  rcases List.suffix_or_suffix_of_suffix htype ⟨pre, rfl⟩ with hs | ⟨x, hx⟩
  · exact haname.2.2 hs
  · -- a name that is shorter than the type has a blank before it, and the type has none
    rw [← hx, ← List.append_assoc] at htext
    have hpre : pre = before ++ x := List.append_cancel_right htext
    rcases List.eq_nil_or_concat x with rfl | ⟨y, c, rfl⟩
    · exact haname.2.2 (by rw [← hx]; exact List.suffix_refl _)
    · rcases hsep with rfl | ⟨b, rfl⟩
      · simp at hpre
      · rw [List.concat_eq_append, ← List.append_assoc] at hpre
        have hc : c = ' ' := by simpa using (List.append_inj' hpre rfl).2.symm
        have hmem : c ∈ "-agent".toList := by rw [← hx]; simp
        rw [hc] at hmem
        exact absurd hmem (by decide)

theorem agentType_operator {agents : List String} (hne : agents ≠ []) (h : ∀ a ∈ agents, IsAgentName a)
    {k : List Char} (hk : Follows k) : agentType ('[' :: (agentText agents ++ ']' :: k)) = none := by
  rw [Option.eq_none_iff_forall_ne_some]
  rintro ⟨new, rest⟩ hsome
  obtain ⟨before, blanks, -, hbefore, hblanks, hcs, -⟩ := agentType_some hsome
  have hopen : '[' ∉ before ++ ("-agent".toList ++ blanks) := by
    simp only [List.mem_append, not_or]
    exact ⟨hbefore, by decide, fun hm => absurd (hblanks _ hm) (by decide)⟩
  have heq : (before ++ ("-agent".toList ++ blanks)) ++ ']' :: rest = agentText agents ++ ']' :: k := by
    rw [(List.cons.inj hcs).2, List.append_assoc, List.append_assoc]
  have hclose : ']' ∉ agentText agents := agentText_not_mem (fun a ha => (h a ha).1) (by decide) (by decide)
  exact agentText_no_type hne h before blanks hblanks (closing_bracket_unique hopen hclose hk.brackets heq).1.symm

theorem operatorParentheses_operator {agents : List String} (h : ∀ a ∈ agents, IsAgentName a) {k : List Char}
    (hk : Follows k) : operatorParentheses ('[' :: (agentText agents ++ ']' :: k)) = none := by
  rw [Option.eq_none_iff_forall_ne_some]
  rintro ⟨new, rest⟩ hsome
  obtain ⟨before, inner, -, hbefore, -, -, -, hcs, -⟩ := operatorParentheses_some hsome
  have hclose : ']' ∉ agentText agents := agentText_not_mem (fun a ha => (h a ha).1) (by decide) (by decide)
  obtain ⟨-, rfl⟩ := closing_bracket_unique hbefore hclose hk.brackets (List.cons.inj hcs).2.symm
  have := hk.delimited '(' rfl
  exact absurd this (by decide)

theorem brackets_append {w k : List Char} (ho : '[' ∉ w) (hc : ']' ∉ w) (hk : ']' ∉ k.takeWhile (· != '[')) :
    ']' ∉ (w ++ k).takeWhile (· != '[') := by
  have hw : ∀ c ∈ w, (c != '[') = true := fun c hm => by
    rw [bne_iff_ne]
    rintro rfl
    exact ho hm
  rw [List.takeWhile_append_of_pos hw, List.mem_append, not_or]
  exact ⟨hc, hk⟩

/-- A rule that can begin at an opening bracket only, and matches at no operator that is rendered. -/
structure Rule.SkipsOperators (rule : Rule) : Prop where
  other : ∀ c cs, c ≠ '[' → rule (c :: cs) = none
  operator : ∀ {agents : List String}, agents ≠ [] → (∀ a ∈ agents, IsAgentName a) → ∀ {k : List Char}, Follows k →
    rule ('[' :: (agentText agents ++ ']' :: k)) = none

theorem agentType_skipsOperators : Rule.SkipsOperators agentType := ⟨agentType_of_ne, agentType_operator⟩

theorem operatorParentheses_skipsOperators : Rule.SkipsOperators operatorParentheses :=
  ⟨operatorParentheses_of_ne, fun _ => operatorParentheses_operator⟩

theorem still_renderWord {rule : Rule} (hr : rule.SkipsOperators) {w : String} (h : IsLeaf w) {k : List Char}
    (hk : Follows k) (hs : Still rule k) :
    Still rule (renderWord w.toList ++ k) ∧ ']' ∉ (renderWord w.toList ++ k).takeWhile (· != '[') := by
  rcases h with h | ⟨agents, hne, hagents, rfl⟩
  · rw [renderWord_plain h]
    exact ⟨still_append hr.other hs (h.not_mem (by decide)),
      brackets_append (h.not_mem (by decide)) (h.not_mem (by decide)) hk.brackets⟩
  · have hinner : '[' ∉ agentText agents ++ [']'] := by
      rw [List.mem_append, not_or]
      exact ⟨agentText_not_mem (fun a ha => (hagents a ha).1) (by decide) (by decide), by decide⟩
    have heq : renderWord (operatorName agents).toList ++ k = '[' :: (agentText agents ++ [']'] ++ k) := by
      rw [renderWord_operator hagents, List.cons_append]
    rw [heq]
    refine ⟨⟨?_, still_append hr.other hs hinner⟩, by simp⟩
    rw [List.append_assoc]
    exact hr.operator hne hagents hk

mutual
/-- **A rule that begins at a bracket and matches at no operator matches nowhere in a rendered tree.** -/
theorem still_render {rule : Rule} (hr : rule.SkipsOperators) : ∀ {t : Tree}, Renderable t →
    ∀ {k : List Char}, Follows k → Still rule k →
    Still rule (render t ++ k) ∧ ']' ∉ (render t ++ k).takeWhile (· != '[')
  | .word w, h, k, hk, hs => still_renderWord hr h hk hs
  | .list ts, h, k, hk, hs => by
    have hclose : Follows (')' :: k) := ⟨by simp, by simpa using hk.brackets⟩
    obtain ⟨hstill, hbrackets⟩ := still_renderItems hr h.2 hclose ⟨hr.other _ _ (by decide), hs⟩
    have heq : render (.list ts) ++ k = '(' :: (renderItems ts ++ ')' :: k) := by simp [render]
    rw [heq]
    exact ⟨⟨hr.other _ _ (by decide), hstill⟩, by simpa using hbrackets⟩
theorem still_renderItems {rule : Rule} (hr : rule.SkipsOperators) : ∀ {ts : List Tree}, RenderableItems ts →
    ∀ {k : List Char}, Follows k → Still rule k →
    Still rule (renderItems ts ++ k) ∧ ']' ∉ (renderItems ts ++ k).takeWhile (· != '[')
  | [], _, _, hk, hs => ⟨hs, hk.brackets⟩
  | [t], h, _, hk, hs => still_render hr h.1 hk hs
  | t :: u :: ts, h, k, hk, hs => by
    obtain ⟨hstill, hbrackets⟩ := still_renderItems hr h.2 hk hs
    have hblank : Follows (' ' :: (renderItems (u :: ts) ++ k)) := ⟨by simp, by simpa using hbrackets⟩
    have heq : renderItems (t :: u :: ts) ++ k = render t ++ ' ' :: (renderItems (u :: ts) ++ k) := by
      simp [renderItems]
    rw [heq]
    exact still_render hr h.1 hblank ⟨hr.other _ _ (by decide), hstill⟩
end

/-! ## Parentheses -/

theorem renderWord_no_parenthesis {w : String} (h : IsLeaf w) : ∀ c ∈ renderWord w.toList, isParenthesis c = false := by
  intro c hc
  rcases h with h | ⟨agents, -, hagents, rfl⟩
  · rw [renderWord_plain h] at hc
    have ho : c ≠ '(' := h.ne_of_mem hc (by decide)
    have hc' : c ≠ ')' := h.ne_of_mem hc (by decide)
    simp [isParenthesis, ho, hc']
  · rw [renderWord_operator hagents] at hc
    unfold isParenthesis
    rw [Bool.or_eq_false_iff, beq_eq_false_iff_ne, beq_eq_false_iff_ne]
    constructor <;> rintro rfl <;>
      · simp only [List.mem_cons, List.mem_append, List.not_mem_nil, or_false] at hc
        rcases hc with hc | hc | hc
        · exact absurd hc (by decide)
        · exact agentText_not_mem (fun a ha => (hagents a ha).1) (by decide) (by decide) hc
        · exact absurd hc (by decide)

theorem renderItems_no_parenthesis : ∀ {ts : List Tree}, RenderableItems ts → (∀ t ∈ ts, t.isList = false) →
    ∀ c ∈ renderItems ts, isParenthesis c = false
  | [], _, _, _, hc => by cases hc
  | [.word w], h, _, c, hc => renderWord_no_parenthesis h.1 c hc
  | .word w :: u :: ts, h, hleaf, c, hc => by
    rw [renderItems] at hc
    rcases List.mem_append.1 hc with hc | hc
    · exact renderWord_no_parenthesis h.1 c hc
    · rcases List.mem_cons.1 hc with rfl | hc
      · rfl
      · exact renderItems_no_parenthesis h.2 (fun t ht => hleaf t (List.mem_cons_of_mem _ ht)) c hc
  | .list us :: ts, _, hleaf, _, _ => absurd (hleaf (.list us) List.mem_cons_self) (by simp [Tree.isList])

/-- The first character of a rendered tree is not a blank and closes nothing, and only a list opens one. -/
theorem render_head : ∀ {t : Tree}, Renderable t → ∃ c r, render t = c :: r ∧ isBlank c = false ∧ c ≠ ')' ∧
    (c = '(' → t.isList = true)
  | .list ts, _ => ⟨'(', _, rfl, by decide, by decide, fun _ => rfl⟩
  | .word w, h => by
    cases hw : renderWord w.toList with
    | nil =>
      rcases h with h | ⟨agents, -, hagents, rfl⟩
      · rw [renderWord_plain h] at hw; exact absurd hw h.1
      · rw [renderWord_operator hagents] at hw; cases hw
    | cons c r =>
      have hp := renderWord_no_parenthesis h c (by rw [hw]; exact List.mem_cons_self)
      simp only [isParenthesis, Bool.or_eq_false_iff, beq_eq_false_iff_ne] at hp
      refine ⟨c, r, hw, ?_, hp.2, fun hc => absurd hc hp.1⟩
      rcases h with h | ⟨agents, -, hagents, rfl⟩
      · rw [renderWord_plain h] at hw
        exact (isWordChar_iff.1 (h.2 c (by rw [hw]; exact List.mem_cons_self))).1
      · rw [renderWord_operator hagents, List.cons.injEq] at hw
        rw [← hw.1]; decide

theorem renderItems_head {t : Tree} (h : Renderable t) (ts : List Tree) (k : List Char) : ∃ c r,
    renderItems (t :: ts) ++ k = c :: r ∧ isBlank c = false ∧ c ≠ ')' ∧ (c = '(' → t.isList = true) := by
  obtain ⟨c, r, hr, hc⟩ := render_head h
  cases ts with
  | nil => exact ⟨c, r ++ k, by rw [renderItems, hr, List.cons_append], hc⟩
  | cons u ts => exact ⟨c, r ++ ' ' :: renderItems (u :: ts) ++ k, by rw [renderItems, hr]; simp, hc⟩

/-- Among items of which one is a list, the first parenthesis opens one. -/
theorem find?_renderItems : ∀ {ts : List Tree}, RenderableItems ts → (∃ t ∈ ts, t.isList = true) → ∀ k,
    (renderItems ts ++ k).find? isParenthesis = some '('
  | [], _, ht, _ => by obtain ⟨t, ht, -⟩ := ht; cases ht
  | .list us :: ts, _, _, k => by cases ts <;> simp [renderItems, render, isParenthesis]
  | .word w :: ts, h, ht, k => by
    have ht : ∃ t ∈ ts, t.isList = true := by
      obtain ⟨t, hm, hl⟩ := ht
      rcases List.mem_cons.1 hm with rfl | hm
      · cases hl
      · exact ⟨t, hm, hl⟩
    cases ts with
    | nil => obtain ⟨t, hm, -⟩ := ht; cases hm
    | cons u ts =>
      have hnone : (renderWord w.toList).find? isParenthesis = none :=
        List.find?_eq_none.2 fun c hc => by rw [renderWord_no_parenthesis h.1 c hc]; simp
      have heq : renderItems (.word w :: u :: ts) ++ k =
          renderWord w.toList ++ ' ' :: (renderItems (u :: ts) ++ k) := by
        simp [renderItems, render]
      rw [heq, List.find?_append, hnone, Option.none_or, List.find?_cons_of_neg (by decide), find?_renderItems h.2 ht k]

theorem renderItems_list (us ts : List Tree) (k : List Char) : ∃ tail,
    renderItems (.list us :: ts) ++ ')' :: k = '(' :: (renderItems us ++ ')' :: tail) ∧
      ((ts = [] ∧ tail = ')' :: k) ∨ ∃ u us', ts = u :: us' ∧ tail = ' ' :: (renderItems (u :: us') ++ ')' :: k)) := by
  cases ts with
  | nil => exact ⟨_, by simp [renderItems, render], .inl ⟨rfl, rfl⟩⟩
  | cons u us' => exact ⟨_, by simp [renderItems, render], .inr ⟨u, us', rfl, rfl⟩⟩

theorem eq_of_append_cons {x : Char} {a b r s : List Char} (ha : x ∉ a) (hb : x ∉ b) (h : a ++ x :: r = b ++ x :: s) :
    a = b ∧ r = s := by
  rcases List.append_eq_append_iff.1 h with ⟨y, rfl, hy⟩ | ⟨y, rfl, hy⟩
  · cases y with
    | nil => simpa using hy
    | cons c y =>
      rw [List.cons_append, List.cons.injEq] at hy
      exact absurd (by rw [← hy.1]; simp) hb
  · cases y with
    | nil => simpa [eq_comm] using hy
    | cons c y =>
      rw [List.cons_append, List.cons.injEq] at hy
      exact absurd (by rw [← hy.1]; simp) ha

theorem eq_of_blanks_append {c x : Char} {b r y : List Char} (hb : ∀ d ∈ b, isBlank d = true) (hc : isBlank c = false)
    (h : c :: r = b ++ x :: y) : c = x ∧ r = y := by
  cases b with
  | nil => exact List.cons.inj h
  | cons d b =>
    rw [List.cons_append, List.cons.injEq] at h
    rw [h.1, hb d List.mem_cons_self] at hc
    cases hc

/-- **The rule for double parentheses does not match at a list that can be rendered.** -/
theorem doubleParentheses_list {ts : List Tree} (h : Renderable (.list ts)) (k : List Char) :
    doubleParentheses ('(' :: (renderItems ts ++ ')' :: k)) = none := by
  rw [Option.eq_none_iff_forall_ne_some]
  rintro ⟨new, rest⟩ hsome
  obtain ⟨b₁, b₂, hb₁, hb₂, hnew, hne, hcs⟩ := doubleParentheses_some hsome
  have hcs := (List.cons.inj hcs).2
  cases ts with
  | nil => exact absurd (eq_of_blanks_append hb₁ (by decide) hcs).1 (by decide)
  | cons t ts =>
    -- the first item begins with the second parenthesis, so it is a list
    obtain ⟨c, r, hr, hblank, -, hlist⟩ := renderItems_head h.2.1 ts (')' :: k)
    obtain ⟨hc, hrest⟩ := eq_of_blanks_append hb₁ hblank (hr.symm.trans hcs)
    obtain ⟨us, rfl⟩ : ∃ us, t = .list us := by
      cases t with
      | word w => exact absurd (hlist hc) (by simp [Tree.isList])
      | list us => exact ⟨us, rfl⟩
    obtain ⟨tail, hlist', htail⟩ := renderItems_list us ts k
    have heq : renderItems us ++ ')' :: tail = new ++ ')' :: (b₂ ++ ')' :: rest) := by
      rw [← hrest]
      exact (List.cons.inj (hlist'.symm.trans hr)).2
    have hclose : ')' ∉ new := fun hm => absurd (hnew _ hm) (by decide)
    by_cases hl : ∃ u ∈ us, u.isList = true
    · have hfind := find?_renderItems h.2.1.2 hl (')' :: tail)
      have hnone : new.find? isParenthesis = none := List.find?_eq_none.2 fun c hc => by rw [hnew c hc]; simp
      rw [heq, List.find?_append, hnone, Option.none_or, List.find?_cons_of_pos (by decide)] at hfind
      exact absurd hfind (by decide)
    · have hwords : ∀ u ∈ us, u.isList = false := fun u hu => Bool.eq_false_iff.2 fun hul => hl ⟨u, hu, hul⟩
      have hitems : ')' ∉ renderItems us := fun hm =>
        absurd (renderItems_no_parenthesis h.2.1.2 hwords _ hm) (by decide)
      obtain ⟨rfl, hbehind⟩ := eq_of_append_cons hitems hclose heq
      rcases htail with ⟨rfl, -⟩ | ⟨u, ts, rfl, rfl⟩
      · rcases h.1 us rfl with rfl | hl'
        · exact hne rfl
        · exact hl hl'
      · -- a second item stands between the two closing parentheses
        obtain ⟨c, r, hr, hblank, hne', -⟩ := renderItems_head h.2.2.1 ts (')' :: k)
        rw [hr] at hbehind
        cases b₂ with
        | nil => exact absurd (List.cons.inj hbehind).1 (by decide)
        | cons d b₂ =>
          have hb : ∀ x ∈ b₂, isBlank x = true := fun x hx => hb₂ x (List.mem_cons_of_mem d hx)
          exact hne' (eq_of_blanks_append hb hblank (List.cons.inj hbehind).2).1

mutual
/-- **The rule for double parentheses matches nowhere in a rendered tree.** -/
theorem still_double_render : ∀ {t : Tree}, Renderable t → ∀ {k : List Char}, Still doubleParentheses k →
    Still doubleParentheses (render t ++ k)
  | .word w, h, k, hs => by
    have hopen : '(' ∉ renderWord w.toList := fun hm => absurd (renderWord_no_parenthesis h _ hm) (by decide)
    exact still_append doubleParentheses_of_ne hs hopen
  | .list ts, h, k, hs => by
    have heq : render (.list ts) ++ k = '(' :: (renderItems ts ++ ')' :: k) := by simp [render]
    rw [heq]
    exact ⟨doubleParentheses_list h k, still_double_renderItems h.2 ⟨doubleParentheses_of_ne _ _ (by decide), hs⟩⟩
theorem still_double_renderItems : ∀ {ts : List Tree}, RenderableItems ts → ∀ {k : List Char},
    Still doubleParentheses k → Still doubleParentheses (renderItems ts ++ k)
  | [], _, _, hs => hs
  | [t], h, _, hs => still_double_render h.1 hs
  | t :: u :: ts, h, k, hs => by
    have heq : renderItems (t :: u :: ts) ++ k = render t ++ ' ' :: (renderItems (u :: ts) ++ k) := by
      simp [renderItems]
    rw [heq]
    exact still_double_render h.1 ⟨doubleParentheses_of_ne _ _ (by decide), still_double_renderItems h.2 hs⟩
end

/-! ## Tokens -/

theorem tokensFrom_letters : ∀ {w : List Char}, (∀ c ∈ w, isBlank c = false ∧ mark? c = none) →
    ∀ (letters k : List Char), tokensFrom letters (w ++ k) = tokensFrom (w.reverse ++ letters) k
  | [], _, _, _ => rfl
  | c :: w, h, letters, k => by
    obtain ⟨hblank, hmark⟩ := h c List.mem_cons_self
    rw [List.cons_append, tokensFrom, hmark]
    simp only [hblank, Bool.false_eq_true, if_false]
    rw [tokensFrom_letters fun d hd => h d (List.mem_cons_of_mem c hd)]
    simp

/-- The text is empty, or begins with a blank or a mark. -/
def Delimited (k : List Char) : Prop := ∀ c ∈ k.head?, isBlank c = true ∨ mark? c ≠ none

theorem delimited_cons {c : Char} (hc : (isBlank c || (mark? c).isSome) = true) (k : List Char) :
    Delimited (c :: k) := by
  intro d hd
  cases hd
  rwa [Bool.or_eq_true, Option.isSome_iff_ne_none] at hc

theorem tokensFrom_delimited {letters k : List Char} (hk : Delimited k) :
    tokensFrom letters k = finishedWord letters ++ tokens k := by
  cases k with
  | nil => simp [tokensFrom, tokens, finishedWord]
  | cons c k =>
    unfold tokens
    rw [tokensFrom, tokensFrom]
    cases hm : mark? c with
    | some t => rfl
    | none =>
      rcases hk c rfl with hb | hn
      · simp [hb, finishedWord]
      · exact absurd hm hn

/-- **A plain word before a delimiter is one token.** -/
theorem tokens_word {w : String} (h : IsPlainWord w) {k : List Char} (hk : Delimited k) :
    tokens (w.toList ++ k) = .word w :: tokens k := by
  have hletters : ∀ c ∈ w.toList, isBlank c = false ∧ mark? c = none := fun c hc =>
    ⟨(isWordChar_iff.1 (h.2 c hc)).1, (isWordChar_iff.1 (h.2 c hc)).2.1⟩
  have hword : finishedWord w.toList.reverse = [.word w] := by
    simp [finishedWord, h.1, String.ofList_toList]
  rw [tokens, tokensFrom_letters hletters, List.append_nil, tokensFrom_delimited hk, hword, List.singleton_append]

theorem tokens_agentText : ∀ {agents : List String}, (∀ a ∈ agents, IsPlainWord a) → ∀ (k : List Char),
    tokens (agentText agents ++ ']' :: k) = agents.map .word ++ .closeAgents :: tokens k
  | [], _, k => rfl
  | [a], h, k => by
    rw [agentText, List.map_singleton, List.intercalate_singleton,
      tokens_word (h a List.mem_cons_self) (delimited_cons (by decide) k)]
    rfl
  | a :: b :: agents, h, k => by
    have ih := @tokens_agentText (b :: agents) (fun c hc => h c (List.mem_cons_of_mem a hc)) k
    have htext : agentText (a :: b :: agents) ++ ']' :: k =
        a.toList ++ ' ' :: (agentText (b :: agents) ++ ']' :: k) := by
      simp [agentText, List.intercalate_cons_cons]
    rw [htext, tokens_word (h a List.mem_cons_self) (delimited_cons (by decide) _), List.map_cons, List.cons_append,
      ← ih]
    rfl

open Nest in
theorem run_renderWord {w : String} (h : IsLeaf w) {k : List Char} (hk : Delimited k) {n : Nest} (hn : n.Outside) :
    ∃ m, run (tokens (renderWord w.toList ++ k)) n = run (tokens k) m ∧ n.Grown m [.word w] := by
  rcases h with h | ⟨agents, -, hagents, rfl⟩
  · rw [renderWord_plain h, tokens_word h hk, run_word hn]
    exact ⟨_, rfl, grown_push hn _⟩
  · have htokens : tokens (renderWord (operatorName agents).toList ++ k) =
        .openAgents :: (agents.map .word ++ .closeAgents :: tokens k) := by
      rw [renderWord_operator hagents, ← tokens_agentText (fun a ha => (hagents a ha).1)]
      simp [tokens, tokensFrom, mark?, finishedWord]
    rw [htokens]
    exact run_operator agents (fun a ha => (hagents a ha).1.not_mem (by decide)) _ n hn

open Nest in
mutual
/-- **The tokens of a rendered tree add that tree to the current list.** -/
theorem run_render : ∀ {t : Tree}, Renderable t → ∀ {k : List Char}, Delimited k → ∀ {n : Nest}, n.Outside →
    ∃ m, run (tokens (render t ++ k)) n = run (tokens k) m ∧ n.Grown m [t]
  | .word w, h, _, hk, _, hn => run_renderWord h hk hn
  | .list ts, h, k, _, n, hn => by
    have htokens : tokens (render (.list ts) ++ k) = .openList :: tokens (renderItems ts ++ ')' :: k) := by
      simp [render, tokens, tokensFrom, mark?, finishedWord]
    have hk : Delimited (')' :: k) := delimited_cons (by decide) k
    obtain ⟨m, hrun, hgrown⟩ := run_renderItems h.2 hk (n := { n with outer := n.items :: n.outer, items := [] }) hn
    have hclose : m.step .closeList = .ok { m with outer := n.outer, items := .list ts :: n.items } := by
      rw [step, hgrown.outer, hgrown.items]
      simp
    refine ⟨{ m with outer := n.outer, items := .list ts :: n.items }, ?_, hgrown.outside, rfl, rfl⟩
    rw [htokens, run_cons rfl, hrun]
    exact run_cons hclose (tokens k)
theorem run_renderItems : ∀ {ts : List Tree}, RenderableItems ts → ∀ {k : List Char}, Delimited k → ∀ {n : Nest},
    n.Outside → ∃ m, run (tokens (renderItems ts ++ k)) n = run (tokens k) m ∧ n.Grown m ts
  | [], _, _, _, n, hn => ⟨n, rfl, .refl hn⟩
  | [t], h, _, hk, _, hn => run_render h.1 hk hn
  | t :: u :: ts, h, k, hk, n, hn => by
    have heq : renderItems (t :: u :: ts) ++ k = render t ++ ' ' :: (renderItems (u :: ts) ++ k) := by
      simp [renderItems]
    have hblank : Delimited (' ' :: (renderItems (u :: ts) ++ k)) := delimited_cons (by decide) _
    obtain ⟨m₁, hrun₁, hgrown₁⟩ := run_render h.1 hblank hn
    obtain ⟨m₂, hrun₂, hgrown₂⟩ := run_renderItems h.2 hk hgrown₁.outside
    refine ⟨m₂, ?_, hgrown₁.trans hgrown₂⟩
    rw [heq, hrun₁, ← hrun₂]
    rfl
end

/-! ## Reading back -/

theorem normalize_eq_self {cs : List Char} (htype : Still agentType cs) (hdouble : Still doubleParentheses cs)
    (hop : Still operatorParentheses cs) : normalize .levels cs = cs := by
  unfold normalize
  rw [htype.pass_eq agentType_consumes]
  simp only
  rw [exhaust_eq_self doubleParentheses_consumes (by rw [hdouble.pass_eq doubleParentheses_consumes]),
    exhaust_eq_self operatorParentheses_consumes (by rw [hop.pass_eq operatorParentheses_consumes])]

theorem normalize_render {t : Tree} (h : Renderable t) : normalize .levels (render t) = render t := by
  have hfollows : Follows [] := ⟨by simp, by simp⟩
  have htype := (still_render agentType_skipsOperators h hfollows trivial).1
  have hdouble := still_double_render h (k := []) trivial
  have hop := (still_render operatorParentheses_skipsOperators h hfollows trivial).1
  rw [List.append_nil] at htype hdouble hop
  exact normalize_eq_self htype hdouble hop

/-- **Reading undoes rendering**: a list of plain words, operators and lists, of which none holds nothing but a list of
words, is read from its rendering as it was. -/
theorem scan_render (ts : List Tree) (h : Renderable (.list ts)) :
    scan .levels (String.ofList (render (.list ts))) = .ok (.list ts) := by
  obtain ⟨m, hrun, hgrown⟩ := run_render h (k := []) (by simp [Delimited]) (n := {}) ⟨rfl, rfl⟩
  rw [List.append_nil] at hrun
  rw [scan, String.toList_ofList, plain_of_chars (render_chars h), normalize_render h, nest, hrun]
  simp only [tokens, tokensFrom, finishedWord, List.isEmpty_nil, if_true, Nest.run, Nest.finish, hgrown.outer,
    hgrown.items]
  rfl

theorem scan_render_beliefs : ∃ ts, Renderable (.list ts) ∧
    String.ofList (render (.list ts)) = "(:goal ([a] ([b c] p)) () (()))" ∧
    scan .levels (String.ofList (render (.list ts))) = .ok (.list ts) := by
  have hgoal : IsLeaf ":goal" := .inl (by decide +kernel)
  have hp : IsLeaf "p" := .inl (by decide +kernel)
  have ha : IsLeaf "B(a," := .inr ⟨["a"], by decide, by decide +kernel, by decide +kernel⟩
  have hbc : IsLeaf "C(b,c," := .inr ⟨["b", "c"], by decide, by decide +kernel, by decide +kernel⟩
  have h : Renderable (.list [.word ":goal", .list [.word "B(a,", .list [.word "C(b,c,", .word "p"]], .list [],
      .list [.list []]]) := by
    simp [Renderable, RenderableItems, hgoal, hp, ha, hbc]
  exact ⟨_, h, by decide +kernel, scan_render _ h⟩

end Epistemic.Source
