import Epistemic.Action.Declaration
import Epistemic.Proofs.Filling
import Epistemic.Proofs.Goals
import Epistemic.Proofs.Statements
/-!
# Preconditions and conditions of effects

A literal can be asked for by a precondition and by the condition of an effect.  The two are read by different rules: a
negation that stands behind the operator of a precondition is drawn into the formula, and that of a condition stays
where it is.  So a literal is printed alike in both places exactly if it is no belief in a negated atom
(`Action.precondition_printed_as_condition_iff`).
-/
namespace Epistemic

namespace Source

theorem isOperatorWord_operatorName {agents : List String} (h : ∀ a ∈ agents, IsPlainWord a) :
    IsOperatorWord (operatorName agents) [] (if agents.length ≤ 1 then 'B' else 'C')
      ([','].intercalate (agents.map String.toList)) [] := by
  have hnone : ∀ {d : Char}, isWordChar d = false → d ≠ ',' → d ∉ [','].intercalate (agents.map String.toList) := by
    intro d hd hcomma
    refine not_mem_intercalate (by simpa using hcomma) fun l hl => ?_
    obtain ⟨a, ha, rfl⟩ := List.mem_map.1 hl
    exact (h a ha).not_mem hd
  constructor
  case eq =>
    unfold operatorName
    rw [String.toList_append, String.toList_append, String.toList_intercalate]
    split <;> rfl
  case mark => split <;> simp
  case parenthesis => simpa using hnone (by decide) (by decide)
  case newline => simpa using hnone (by decide) (by decide)
  case comma => simp

end Source

theorem Keyword.of?_eq_none {w : String} (h : Keyword.of? (.word w) = none) : w ≠ "and" ∧ w ≠ "not" := by
  constructor
  · rintro rfl
    cases h
  · rintro rfl
    cases h

namespace MAp

open Source (IsPlainWord operatorName)

/-! ## Formulas -/

/-- The text of an operator, where several agents stand in brackets. -/
def operatorText (agents : List String) : String :=
  if agents.length ≤ 1 then operatorName agents else "C([" ++ String.intercalate "," agents ++ "],"

theorem occurs_mark {m mark : Char} {cs : List Char} (hmark : m ≠ '(') (h : '(' ∉ cs) :
    Text.occurs [m, '('] (mark :: '(' :: cs) = (m == mark) := by
  have hcs : Text.occurs [m, '('] cs = false :=
    Bool.eq_false_iff.2 fun hocc => h (Text.mem_of_occurs (by simp) hocc)
  simp [Text.occurs, List.isPrefixOf, hcs, hmark]

/-- The operator of agents is written with them, whatever their names are, if no parenthesis stands in a name. -/
theorem operator?_of_not_mem {agents : List String} (h : ∀ a ∈ agents, '(' ∉ a.toList) :
    operator? (.word (operatorName agents)) = .ok (some (operatorText agents)) := by
  have hagents : '(' ∉ [','].intercalate (agents.map String.toList) ++ [','] := by
    rw [List.mem_append, not_or]
    refine ⟨Source.not_mem_intercalate (by decide) fun l hl => ?_, by decide⟩
    obtain ⟨a, ha, rfl⟩ := List.mem_map.1 hl
    exact h a ha
  have heq : (operatorName agents).toList = (if agents.length ≤ 1 then 'B' else 'C') :: '(' ::
      ([','].intercalate (agents.map String.toList) ++ [',']) := by
    unfold operatorName
    rw [String.toList_append, String.toList_append, String.toList_intercalate]
    split <;> rfl
  unfold operator? operatorText
  by_cases hone : agents.length ≤ 1
  · rw [if_pos hone] at heq
    have hcommon : (Tree.word (operatorName agents)).hasCommonBelief = false := by
      rw [Tree.hasCommonBelief, Tree.mentions, heq]
      exact occurs_mark (by decide) hagents
    have hbelief : (Tree.word (operatorName agents)).hasBelief = true := by
      rw [Tree.hasBelief, Tree.mentions, heq]
      exact occurs_mark (by decide) hagents
    simp [hcommon, hbelief, hone]
  · rw [if_neg hone] at heq
    have hcommon : (Tree.word (operatorName agents)).hasCommonBelief = true := by
      rw [Tree.hasCommonBelief, Tree.mentions, heq]
      exact occurs_mark (by decide) hagents
    have hopen : Text.replaceAll "C(".toList "C([".toList (operatorName agents).toList =
        ['C', '(', '['] ++ ([','].intercalate (agents.map String.toList) ++ [',']) := by
      rw [heq]
      show ['C', '(', '['] ++ Text.replaceFrom ['C', '('] ['C', '(', '['] 0 _ = _
      rw [Text.replaceFrom_of_not_mem (by decide : '(' ∈ ['C', '(']) hagents]
    have htext : commonBelief (operatorName agents).toList =
        ("C([" ++ String.intercalate "," agents ++ "],").toList := by
      rw [commonBelief, hopen, ← List.append_assoc, List.dropLast_concat, String.toList_append, String.toList_append,
        String.toList_intercalate]
      rfl
    simp only [hcommon, if_true, if_neg hone, htext, String.ofList_toList]

theorem operator?_operatorName {agents : List String} (h : ∀ a ∈ agents, IsPlainWord a) :
    operator? (.word (operatorName agents)) = .ok (some (operatorText agents)) :=
  operator?_of_not_mem fun a ha => (h a ha).not_mem (by decide)

/-- The items of a formula with its text: an atom, or an operator before a formula, in the same list or with a list of
its own, or before the negation of an atom. -/
inductive IsFormula : List Tree → String → Prop
  | atom {name : String} {args : List String} (hname : IsPlainWord name) (hkeyword : Keyword.of? (.word name) = none)
      (hargs : ∀ w ∈ args, IsPlainWord w) :
      IsFormula ((name :: args).map .word) (String.intercalate "_" (name :: args))
  | believed {agents : List String} {ts : List Tree} {text : String} (hagents : ∀ a ∈ agents, IsPlainWord a)
      (h : IsFormula ts text) : IsFormula (.word (operatorName agents) :: ts) (operatorText agents ++ text ++ ")")
  | enclosed {agents : List String} {ts : List Tree} {text : String} (hagents : ∀ a ∈ agents, IsPlainWord a)
      (h : IsFormula ts text) : IsFormula [.word (operatorName agents), .list ts] (operatorText agents ++ text ++ ")")
  | denied {agents : List String} {name : String} {args : List String} (hagents : ∀ a ∈ agents, IsPlainWord a)
      (hatom : ∀ w ∈ name :: args, IsPlainWord w) :
      IsFormula [.word (operatorName agents), .list [.word "not", .list ((name :: args).map .word)]]
        (operatorText agents ++ ("not_" ++ (Tree.list ((name :: args).map .word)).shown) ++ ")")

theorem formulaFrom_before_word {t : Tree} {op : String} (hop : operator? t = .ok (some op)) (opened : Nat) (w : String)
    (rest : List Tree) : formulaFrom 0 opened (t :: .word w :: rest) =
      (formulaFrom 0 (opened + 1) (.word w :: rest)).map (op ++ ·) := by
  rw [formulaFrom, hop]
  simp [behindOperator, enclosed]

theorem formulaFrom_before_list {t : Tree} {op text : String} {inner : List Tree} (hop : operator? t = .ok (some op))
    (hinner : inner ≠ []) (htext : formulaFrom 0 0 inner = .ok text) (opened : Nat) :
    formulaFrom 0 opened [t, .list inner] = .ok (op ++ text ++ closings (opened + 1)) := by
  obtain ⟨first, more, rfl⟩ := List.exists_cons_of_ne_nil hinner
  have hbehind : behindOperator [.list (first :: more)] = .ok (text, more.length + 1) := by
    rw [behindOperator, enclosed, htext]
    rfl
  rw [formulaFrom, hop]
  simp only [hbehind, formulaFrom, Except.map]

theorem operator?_word {w : String} (h : Literals.isOperator (.word w) = false) : operator? (.word w) = .ok none := by
  rw [Literals.isOperator, Bool.or_eq_false_iff] at h
  simp [operator?, h.1, h.2]

/-- Words that are no operators are joined by underscores. -/
theorem formulaFrom_words (opened : Nat) {ws : List String} (h : ∀ w ∈ ws, Literals.isOperator (.word w) = false) :
    formulaFrom 0 opened (ws.map .word) = .ok (String.intercalate "_" ws ++ closings opened) := by
  induction ws with
  | nil => simp [formulaFrom]
  | cons w ws ih =>
    obtain ⟨hw, hws⟩ := List.forall_mem_cons.1 h
    rw [List.map_cons, formulaFrom, operator?_word hw]
    simp only
    rw [ih hws]
    cases ws with
    | nil => simp [Except.map, Tree.shown]
    | cons v ws => simp [Except.map, Tree.shown, String.append_assoc]

theorem keyword?_of_mem {w : String} {d : Char} (hd : d ∉ "andwhenforallnot".toList) (h : d ∈ w.toList) :
    Keyword.of? (.word w) = none := by
  have hne : ∀ k : String, d ∉ k.toList → (Tree.word w).isWord k = false := by
    intro k hk
    refine Bool.eq_false_iff.2 fun hw => hk ?_
    have heq : w = k := by simpa [Tree.isWord] using hw
    rwa [← heq]
  have hsplit : "andwhenforallnot".toList = "and".toList ++ ("when".toList ++ ("forall".toList ++ "not".toList)) := rfl
  rw [hsplit, List.mem_append, List.mem_append, List.mem_append, not_or, not_or, not_or] at hd
  simp [Keyword.of?, hne _ hd.1, hne _ hd.2.1, hne _ hd.2.2.1, hne _ hd.2.2.2]

theorem keyword?_of_parenthesis {w : String} (h : '(' ∈ w.toList) : Keyword.of? (.word w) = none :=
  keyword?_of_mem (by decide) h

theorem parenthesis_mem_operatorName (agents : List String) : '(' ∈ (operatorName agents).toList := by
  obtain ⟨x, hx⟩ := Source.operatorName_toList agents
  simp [hx]

theorem IsFormula.head {ts : List Tree} {text : String} (h : IsFormula ts text) :
    ∃ w rest, ts = .word w :: rest ∧ Keyword.of? (.word w) = none := by
  cases h with
  | atom _ hkeyword _ => exact ⟨_, _, rfl, hkeyword⟩
  | believed _ _ => exact ⟨_, _, rfl, keyword?_of_parenthesis (parenthesis_mem_operatorName _)⟩
  | enclosed _ _ => exact ⟨_, _, rfl, keyword?_of_parenthesis (parenthesis_mem_operatorName _)⟩
  | denied _ _ => exact ⟨_, _, rfl, keyword?_of_parenthesis (parenthesis_mem_operatorName _)⟩

/-- A list of plain words is no operator. -/
theorem operator?_words {ws : List String} (h : ∀ w ∈ ws, IsPlainWord w) :
    operator? (.list (ws.map .word)) = .ok none := by
  have hnone : ∀ op : String, '(' ∈ op.toList → (Tree.list (ws.map .word)).mentions op = false := by
    intro op hop
    refine Bool.eq_false_iff.2 fun hmem => ?_
    obtain ⟨w, hw, heq⟩ := List.mem_map.1 (List.contains_iff_mem.1 hmem)
    cases heq
    exact (h op hw).not_mem (by decide) hop
  simp [operator?, Tree.hasCommonBelief, Tree.hasBelief, hnone]

/-- **A formula is printed as its text.** -/
theorem IsFormula.formulaFrom_eq {ts : List Tree} {text : String} (h : IsFormula ts text) :
    ∀ opened, formulaFrom 0 opened ts = .ok (text ++ closings opened) := by
  induction h with
  | atom hname hkeyword hargs =>
    intro opened
    refine formulaFrom_words opened fun v hv => ?_
    rcases List.mem_cons.1 hv with rfl | hv
    · exact hname.isOperator_eq_false
    · exact (hargs v hv).isOperator_eq_false
  | @believed agents ts text hagents h ih =>
    intro opened
    obtain ⟨w, rest, rfl, -⟩ := h.head
    rw [formulaFrom_before_word (operator?_operatorName hagents), ih (opened + 1), closings_succ]
    simp [Except.map, String.append_assoc]
  | @enclosed agents ts text hagents h ih =>
    intro opened
    obtain ⟨w, rest, rfl, -⟩ := h.head
    rw [formulaFrom_before_list (operator?_operatorName hagents) (List.cons_ne_nil _ _) (ih 0), closings_succ]
    simp [closings, String.append_assoc]
  | @denied agents name args hagents hatom =>
    intro opened
    have hnot : formulaFrom 0 0 [.word "not", .list ((name :: args).map .word)] =
        .ok ("not_" ++ (Tree.list ((name :: args).map .word)).shown) := by
      have hword : operator? (.word "not") = .ok none := by decide
      simp only [formulaFrom, hword, operator?_words hatom, Except.map]
      simp [closings, Tree.shown]
    rw [formulaFrom_before_list (operator?_operatorName hagents) (List.cons_ne_nil _ _) hnot, closings_succ]
    simp [String.append_assoc]

theorem IsFormula.formula_eq {ts : List Tree} {text : String} (h : IsFormula ts text) :
    formula (.list ts) = .ok text := by
  rw [formula, Tree.items, h.formulaFrom_eq 0]
  simp [closings]

theorem IsFormula.blank_not_mem {ts : List Tree} {text : String} (h : IsFormula ts text) : .word "" ∉ ts := by
  have hplain : ∀ {ws : List String}, (∀ w ∈ ws, IsPlainWord w) → Tree.word "" ∉ ws.map .word := by
    intro ws hws hmem
    obtain ⟨w, hw, heq⟩ := List.mem_map.1 hmem
    cases heq
    exact (hws "" hw).1 rfl
  have hop : ∀ agents, Tree.word "" ≠ .word (operatorName agents) := by
    intro agents heq
    have hmem := parenthesis_mem_operatorName agents
    rw [← Tree.word.inj heq] at hmem
    cases hmem
  induction h with
  | atom hname _ hargs => exact hplain (List.forall_mem_cons.2 ⟨hname, hargs⟩)
  | believed _ _ ih => simp [hop, ih]
  | enclosed _ _ _ => simp [hop]
  | denied _ _ => simp [hop]

/-! ## Guards of one condition -/

/-- A guard that asks for one formula, to hold or not to hold, beside what there is of the other sign. -/
def asking (positive : Bool) (ts other : List Tree) : Guard :=
  if positive then ⟨[.list ts], other⟩ else ⟨other, [.list ts]⟩

theorem conditions_none {cs : List Tree} (h : AreNone cs) (positive first : Bool) :
    conditions positive first cs = ⟨"", [], .ok false⟩ := by
  simp [conditions, tidy_of_areNone h]

theorem listedInOrder_formula {ts : List Tree} {text : String} (hne : ts ≠ []) (h : formula (.list ts) = .ok text)
    (sign : String) : listedInOrder sign false [.list ts] = (sign ++ text, none) := by
  have hitems : (Tree.list ts).items.isEmpty = false := by simpa [Tree.items] using hne
  have horder : beliefsFirst [.list ts] = .ok [.list ts] := by
    by_cases hbelief : beginsWithBelief (.list ts) = true <;> simp [beliefsFirst, hitems, hbelief]
  simp [listedInOrder, horder, listed, h]

theorem conditions_formula {ts : List Tree} {text : String} (h : IsFormula ts text) (positive : Bool) :
    conditions positive true [.list ts] = ⟨" if " ++ (signText positive ++ text), [.list ts], .ok true⟩ := by
  obtain ⟨w, rest, rfl, -⟩ := h.head
  have htidy : tidy [.list (.word w :: rest)] = ([.list (.word w :: rest)], none) := by
    exact tidy_single (List.cons_ne_nil _ _) h.blank_not_mem
  simp [conditions, htidy, listedInOrder_formula (List.cons_ne_nil _ _) h.formula_eq]

/-- **A guard that asks for one formula is printed with it**, and asks for it still. -/
theorem guard_asking {ts other : List Tree} {text : String} (h : IsFormula ts text) (hother : AreNone other)
    (positive : Bool) :
    guard (asking positive ts other) = ⟨" if " ++ (signText positive ++ text), asking positive ts [], .ok true⟩ := by
  cases positive with
  | true => simp [guard, printBoth, asking, conditions_formula h, conditions_none hother, Except.map]
  | false => simp [guard, printBoth, asking, conditions_formula h, conditions_none hother, Except.map]

/-- A place of a table holds a guard that asks for one formula. -/
structure AskedAt (positive : Bool) (ts : List Tree) (i : Nat) (guards : List Guard) : Prop where
  bound : i < guards.length
  asks : ∃ other, AreNone other ∧ guardAt guards i = asking positive ts other

theorem AskedAt.set {positive : Bool} {ts : List Tree} {i : Nat} {guards : List Guard}
    (h : AskedAt positive ts i guards) : AskedAt positive ts i (guards.set i (asking positive ts [])) where
  bound := by simpa using h.bound
  asks := ⟨[], .inr rfl, by simp [guardAt, h.bound]⟩

/-- The statement of an effect under a guard that asks for one formula. -/
theorem effect_asked {positive : Bool} {ts : List Tree} {text : String} (hformula : IsFormula ts text)
    (name verb sign : String) {e : Entry} {body : String} (hbody : formula e.body = .ok body) {sheet : Sheet}
    (h : AskedAt positive ts e.guard sheet.guards) : ∃ done, (effect name verb sign e).perform sheet = (.ok (), done) ∧
      done.text = sheet.text ++ (name ++ verb ++ (sign ++ body) ++ " if " ++ (signText positive ++ text) ++ ";\n") ∧
      AskedAt positive ts e.guard done.guards := by
  obtain ⟨other, hother, hguard⟩ := h.asks
  have hprinted := Sheet.perform_printGuard guard e.guard
    { sheet with text := sheet.text ++ (name ++ verb) ++ (sign ++ body) }
  simp only [hguard, guard_asking hformula hother] at hprinted
  rw [effect, Sheet.perform_write_bind, hbody, Work.perform_bind_ok (Work.perform_ofExcept _ _),
    Sheet.perform_write_bind, Work.perform_bind_ok hprinted]
  exact ⟨_, rfl, by simp only [String.append_assoc], h.set⟩

/-- What a statement says before its condition. -/
def SaysEffect (name verb sign : String) (e : Entry) (head : String) : Prop :=
  ∃ body, formula e.body = .ok body ∧ head = name ++ verb ++ (sign ++ body)

/-- **Effects under a guard that asks for one formula have its condition behind each of them.** -/
theorem effects_asked {positive : Bool} {ts : List Tree} {text : String} (hformula : IsFormula ts text)
    (name verb sign : String) {i : Nat} : ∀ {es : List Entry} {sheet : Sheet},
    (∀ e ∈ es, e.guard = i ∧ ∃ body, formula e.body = .ok body) → AskedAt positive ts i sheet.guards →
    ∃ heads done, (Work.each (effect name verb sign) es).perform sheet = (.ok (), done) ∧
      List.Forall₂ (SaysEffect name verb sign) es heads ∧
      done.text = sheet.text ++ terminated (heads.map (· ++ " if " ++ (signText positive ++ text))) ∧
      AskedAt positive ts i done.guards := by
  intro es
  induction es with
  | nil =>
    intro sheet _ h
    exact ⟨[], sheet, rfl, .nil, by simp [terminated], h⟩
  | cons e es ih =>
    intro sheet hes h
    obtain ⟨rfl, body, hbody⟩ := hes e List.mem_cons_self
    obtain ⟨mid, hfirst, hmid, hasked⟩ := effect_asked hformula name verb sign hbody h
    obtain ⟨heads, done, hrest, hheads, htext, hasked⟩ := ih (fun e' he' => hes e' (List.mem_cons_of_mem e he')) hasked
    refine ⟨_ :: heads, done, ?_, .cons ⟨body, hbody, rfl⟩ hheads, ?_, hasked⟩
    · rw [Work.each, Work.perform_bind_ok hfirst, hrest]
    · rw [htext, hmid, List.map_cons, terminated_cons, String.append_assoc]

/-- Effects of an action are printed in order, with a condition behind each of them. -/
def PrintedUnder (a : Action) (adds deletes : List Entry) (condition : String) : Prop :=
  ∀ (verb : String) (sheet : Sheet), sheet.guards = a.guards → ∃ heads heads' done,
    (do Work.each (effect a.name verb "") adds; Work.each (effect a.name verb "-") deletes).perform sheet =
      (.ok (), done) ∧
    List.Forall₂ (SaysEffect a.name verb "") adds heads ∧ List.Forall₂ (SaysEffect a.name verb "-") deletes heads' ∧
    done.text = sheet.text ++ terminated ((heads ++ heads').map (· ++ " if " ++ condition))

theorem printedUnder_asked {positive : Bool} {ts : List Tree} {text : String} (hformula : IsFormula ts text) {i : Nat}
    {a : Action} (hasked : AskedAt positive ts i a.guards) {adds deletes : List Entry}
    (hes : ∀ e ∈ adds ++ deletes, e.guard = i ∧ ∃ body, formula e.body = .ok body) :
    PrintedUnder a adds deletes (signText positive ++ text) := by
  intro verb sheet hguards
  rw [← hguards] at hasked
  obtain ⟨heads, mid, hadds, hheads, hmid, hasked⟩ := effects_asked hformula a.name verb ""
    (fun e he => hes e (List.mem_append_left deletes he)) hasked
  obtain ⟨heads', done, hdeletes, hheads', hdone, -⟩ := effects_asked hformula a.name verb "-"
    (fun e he => hes e (List.mem_append_right adds he)) hasked
  refine ⟨heads, heads', done, ?_, hheads, hheads', ?_⟩
  · rw [Work.perform_bind_ok hadds, hdeletes]
  · rw [hdone, hmid, List.map_append, terminated_append, String.append_assoc]

/-! ## Preconditions -/

/-- A formula that is an operator before the negation of an atom. -/
def IsDenial (ts : List Tree) : Prop := ∃ op atom, ts = [op, .list [.word "not", atom]]

theorem isOperator_operatorName {agents : List String} (h : ∀ a ∈ agents, IsPlainWord a) :
    Literals.isOperator (.word (operatorName agents)) = true := (Source.isOperatorWord_operatorName h).isOperator

/-- A negation behind an operator is drawn into the formula, where a hyphen marks it. -/
theorem formula_drawn {agents : List String} (hagents : ∀ a ∈ agents, IsPlainWord a) {name : String}
    {args : List String} (hatom : ∀ w ∈ name :: args, IsPlainWord w) :
    formula (.list (.word (operatorName agents) :: .word ("-" ++ name) :: args.map .word)) =
      .ok (operatorText agents ++ ("-" ++ String.intercalate "_" (name :: args)) ++ ")") := by
  have hhyphen : IsPlainWord ("-" ++ name) := by
    refine ⟨by simp, fun c hc => ?_⟩
    rw [String.toList_append, List.mem_append] at hc
    rcases hc with hc | hc
    · rw [List.mem_singleton.1 hc]
      decide
    · exact (hatom name List.mem_cons_self).2 c hc
  have hwords := formulaFrom_words 1 fun w hw =>
    (List.forall_mem_cons.2 ⟨hhyphen, (List.forall_mem_cons.1 hatom).2⟩ w hw).isOperator_eq_false
  rw [List.map_cons, String.intercalate_cons_append] at hwords
  rw [formula, Tree.items, formulaFrom_before_word (operator?_operatorName hagents), hwords]
  simp [Except.map, closings, String.append_assoc]

/-- **The negation behind the operator of a denial is drawn in, and that changes its text.**  Any other formula is left
as it is. -/
theorem IsFormula.normalForm_eq {ts : List Tree} {text : String} (h : IsFormula ts text) :
    ∃ w rest drawn, Literals.normalForm (.list ts) = .ok (.list (.word w :: rest)) ∧ Keyword.of? (.word w) = none ∧
      formula (.list (.word w :: rest)) = .ok drawn ∧ (drawn = text ↔ ¬ IsDenial ts) := by
  have hself : Literals.normalForm (.list ts) = .ok (.list ts) → ¬ IsDenial ts → ∃ w rest drawn,
      Literals.normalForm (.list ts) = .ok (.list (.word w :: rest)) ∧ Keyword.of? (.word w) = none ∧
      formula (.list (.word w :: rest)) = .ok drawn ∧ (drawn = text ↔ ¬ IsDenial ts) := by
    intro hnormal hdenial
    obtain ⟨w, rest, rfl, hkeyword⟩ := h.head
    exact ⟨w, rest, text, hnormal, hkeyword, h.formula_eq, iff_of_true rfl hdenial⟩
  cases h with
  | @atom name args hname hkeyword hargs =>
    refine hself (by simp [Literals.normalForm, Tree.items, hname.isOperator_eq_false]) ?_
    rintro ⟨op, atom, heq⟩
    cases args with
    | nil => simp at heq
    | cons arg args => simp at heq
  | @believed agents ts text hagents h =>
    obtain ⟨w, rest, rfl, hkeyword⟩ := h.head
    refine hself (by simp [Literals.normalForm, Tree.items, isOperator_operatorName hagents]) ?_
    rintro ⟨op, atom, heq⟩
    simp at heq
  | @enclosed agents ts text hagents h =>
    obtain ⟨w, rest, rfl, hkeyword⟩ := h.head
    have hne := (Keyword.of?_eq_none hkeyword).2
    have hnot : (Tree.word w).isWord "not" = false := by simpa [Tree.isWord] using hne
    refine hself (by simp [Literals.normalForm, Tree.items, isOperator_operatorName hagents, Literals.drawIn, hnot]) ?_
    rintro ⟨op, atom, heq⟩
    simp only [List.cons.injEq, Tree.list.injEq, Tree.word.injEq] at heq
    exact hne heq.2.1.1
  | @denied agents name args hagents hatom =>
    refine ⟨operatorName agents, .word ("-" ++ name) :: args.map .word, _, ?_,
      keyword?_of_parenthesis (parenthesis_mem_operatorName agents), formula_drawn hagents hatom, ?_⟩
    · simp [Literals.normalForm, Tree.items, isOperator_operatorName hagents, Literals.drawIn, Tree.isWord]
    · refine iff_of_false (fun heq => ?_) (not_not.2 ⟨_, _, rfl⟩)
      -- the one goes on with a hyphen behind the operator, and the other with `not`
      have hlist := congrArg String.toList heq
      simp at hlist

/-- **A single precondition is printed as its formula.** -/
theorem preconditions_single {a : Action} {positive : Bool} {ts : List Tree} {text : String} (hne : ts ≠ [])
    (htext : formula (.list ts) = .ok text)
    (ha : if positive then a.positivePreconditions = [.list ts] ∧ a.negativePreconditions = []
      else a.positivePreconditions = [] ∧ a.negativePreconditions = [.list ts]) (sheet : Sheet) :
    (preconditions a).perform sheet =
      (.ok (), { sheet with text := sheet.text ++ (" if " ++ (signText positive ++ text) ++ ";\n") }) := by
  have hnone : listedInOrder "" true [] = ("", none) ∧ listedInOrder "-" false [] = ("", none) := ⟨rfl, rfl⟩
  cases positive with
  | true =>
    obtain ⟨hpos, hneg⟩ := ha
    simp [preconditions, hpos, hneg, listedInOrder_formula hne htext, hnone, writeListed, Sheet.perform_write_bind,
      signText, String.append_assoc]
  | false =>
    obtain ⟨hpos, hneg⟩ := ha
    simp [preconditions, hpos, hneg, listedInOrder_formula hne htext, hnone, writeListed, Sheet.perform_write_bind,
      signText, String.append_assoc]

end MAp

/-! ## Reading -/

/-- A literal: a formula that is to hold or not to hold. -/
structure Literal where
  affirmed : Bool
  items : List Tree

namespace Literal

open MAp (IsFormula asking)

/-- A literal as it is written. -/
def tree (l : Literal) : Tree := if l.affirmed then .list l.items else .list [.word "not", .list l.items]

/-- Literals as they are written in a conjunction, or one by itself. -/
def conjunction : List Literal → Tree
  | [l] => l.tree
  | ls => .list (.word "and" :: ls.map tree)

/-- Records a literal, by its sign. -/
def record (s : Scope) (r : Reading) (l : Literal) : Reading :=
  if l.affirmed then r.addPositive s (.list l.items) else r.addNegative s (.list l.items)

/-- The literals of one sign as effects under a guard. -/
def entries (affirmed : Bool) (guard : Nat) (ls : List Literal) : List Entry :=
  (ls.filter (·.affirmed == affirmed)).map fun l => ⟨.list l.items, guard, blankConditions⟩

theorem foldl_record {s : Scope} (hrecorded : s.recorded = true) (hexcluded : s.excluded = blankConditions) :
    ∀ (ls : List Literal) (r : Reading), ls.foldl (record s) r = { r with
      positive := r.positive ++ entries true s.guard ls
      negative := r.negative ++ entries false s.guard ls } := by
  intro ls
  induction ls with
  | nil =>
    intro r
    simp [entries]
  | cons l ls ih =>
    intro r
    rw [List.foldl_cons, ih]
    rcases l with ⟨_ | _, items⟩
    · simp [record, Reading.addNegative, hrecorded, hexcluded, entries]
    · simp [record, Reading.addPositive, hrecorded, hexcluded, entries]

theorem length_entries (guard : Nat) (ls : List Literal) :
    (entries true guard ls).length + (entries false guard ls).length = ls.length := by
  induction ls with
  | nil => rfl
  | cons l ls ih =>
    rcases l with ⟨_ | _, items⟩ <;> simp [entries] at ih ⊢ <;> omega

theorem of_mem_entries {affirmed : Bool} {guard : Nat} {ls : List Literal} {e : Entry}
    (h : e ∈ entries affirmed guard ls) : e.guard = guard ∧ ∃ l ∈ ls, e.body = .list l.items := by
  obtain ⟨l, hl, rfl⟩ := List.mem_map.1 h
  exact ⟨rfl, l, (List.mem_filter.1 hl).1, rfl⟩

/-- A literal whose formula begins with a word that is no keyword. -/
def IsHeaded (l : Literal) : Prop := ∃ w rest, l.items = .word w :: rest ∧ Keyword.of? (.word w) = none

/-- What a literal is read as. -/
def meaning (l : Literal) : Meaning := if l.affirmed then .literal (.list l.items) else .negated (.list l.items)

variable {l : Literal} {text : String}

theorem headKeyword? (h : l.IsHeaded) : headKeyword? l.tree = .ok (if l.affirmed then none else some .not) := by
  obtain ⟨w, rest, hitems, hkeyword⟩ := h
  rcases l with ⟨_ | _, items⟩
  · rfl
  · cases hitems
    simp [tree, Epistemic.headKeyword?, Tree.items, hkeyword]

theorem readCondition_tree (h : l.IsHeaded) (place : Place) (read : Scope → Tree → Reading → ReadTree)
    (r : Reading) : readCondition place read l.tree r = .ok (asking l.affirmed l.items blankConditions) := by
  unfold readCondition
  rw [headKeyword? h]
  rcases l with ⟨_ | _, items⟩ <;> rfl

theorem readWithin_tree (h : l.IsHeaded) (place : Place) (fuel : Nat) (s : Scope) (r : Reading) :
    readWithin place (fuel + 1) s l.tree r = ⟨record s r l, l.tree, .ok l.meaning⟩ := by
  obtain ⟨w, rest, hitems, hkeyword⟩ := h
  rcases l with ⟨_ | _, items⟩
  · rfl
  · cases hitems
    simp [tree, readWithin, hkeyword, record, meaning]

theorem readEach_trees (place : Place) (fuel : Nat) (s : Scope) : ∀ {ls : List Literal},
    (∀ l ∈ ls, ∃ text, IsFormula l.items text) → ∀ r, ∃ left ms,
      readEach (readWithin place (fuel + 1) s) (ls.map tree) r = ⟨ls.foldl (record s) r, left, .ok ms⟩ := by
  intro ls
  induction ls with
  | nil => exact fun _ r => ⟨[], [], rfl⟩
  | cons l ls ih =>
    intro hls r
    obtain ⟨text, h⟩ := hls l List.mem_cons_self
    obtain ⟨lefts, ms, hrest⟩ := ih (fun l' hl' => hls l' (List.mem_cons_of_mem l hl')) (record s r l)
    refine ⟨l.tree :: lefts, l.meaning :: ms, ?_⟩
    simp [readEach, readWithin_tree h.head place fuel s r, hrest, Except.map]

theorem readWithin_conjunction {ls : List Literal} (hls : ∀ l ∈ ls, ∃ text, IsFormula l.items text) (place : Place)
    (fuel : Nat) (s : Scope) (r : Reading) :
    ∃ left m, readWithin place (fuel + 2) s (conjunction ls) r = ⟨ls.foldl (record s) r, left, .ok m⟩ := by
  have hand : ∃ left m, readWithin place (fuel + 2) s (.list (.word "and" :: ls.map tree)) r =
      ⟨ls.foldl (record s) r, left, .ok m⟩ := by
    obtain ⟨left, ms, hall⟩ := readEach_trees place fuel s hls r
    have hkeyword : Keyword.of? (.word "and") = some .and := by decide
    simp [readWithin, hkeyword, hall, Except.map]
  unfold conjunction
  split
  · obtain ⟨text, h⟩ := hls _ List.mem_cons_self
    exact ⟨_, _, readWithin_tree h.head place (fuel + 1) s r⟩
  · exact hand

theorem headKeyword?_conjunction {ls : List Literal} (hls : ∀ l ∈ ls, ∃ text, IsFormula l.items text) :
    ∃ k, Epistemic.headKeyword? (conjunction ls) = .ok k ∧ k ≠ some .when ∧ k ≠ some .forall := by
  unfold conjunction
  split
  · obtain ⟨text, h⟩ := hls _ List.mem_cons_self
    refine ⟨_, headKeyword? h.head, ?_⟩
    split <;> decide
  · exact ⟨some .and, rfl, by decide⟩

theorem depth_tree_pos (l : Literal) : 1 ≤ l.tree.depth := by
  rcases l with ⟨_ | _, items⟩ <;> simp [tree, Tree.depth]

theorem readWhen_trees {φ : Literal} (h : IsFormula φ.items text) {ls : List Literal}
    (hls : ∀ l ∈ ls, ∃ text, IsFormula l.items text) (place : Place) (fuel guard : Nat) (r : Reading) :
    ∃ left m, readWhen place (readWithin place (fuel + 2)) ⟨guard, blankConditions, true⟩ [φ.tree, conjunction ls] r =
      ⟨{ guards := r.guards ++ [asking φ.affirmed φ.items blankConditions]
         positive := r.positive ++ entries true r.guards.length ls
         negative := r.negative ++ entries false r.guards.length ls }, left, .ok m⟩ := by
  obtain ⟨k, hkeyword, hwhen, hforall⟩ := headKeyword?_conjunction hls
  obtain ⟨left, m, hbody⟩ := readWithin_conjunction hls place fuel ⟨r.guards.length, blankConditions, true⟩
    { r with guards := r.guards ++ [asking φ.affirmed φ.items blankConditions] }
  rw [foldl_record rfl rfl] at hbody
  refine ⟨.list [], .conditional left (asking φ.affirmed φ.items blankConditions), ?_⟩
  simp only [readWhen, readCondition_tree h.head, hkeyword, Reading.addGuard, hbody, Except.map]

/-- **An effect under a literal** adds a guard that asks for it, and its own literals under that guard. -/
theorem addEffect_when {φ : Literal} (h : IsFormula φ.items text) {ls : List Literal}
    (hls : ∀ l ∈ ls, ∃ text, IsFormula l.items text) (a : Action) :
    a.addEffect (.list [.word "when", φ.tree, conjunction ls]) = .ok { a with
      guards := a.guards ++ [.blank, asking φ.affirmed φ.items blankConditions]
      addEffects := a.addEffects ++ entries true (a.guards.length + 1) ls
      deleteEffects := a.deleteEffects ++ entries false (a.guards.length + 1) ls } := by
  obtain ⟨fuel, hfuel⟩ : ∃ n, (Tree.list [.word "when", φ.tree, conjunction ls]).depth = n + 2 := by
    have hpos := depth_tree_pos φ
    refine ⟨(Tree.list [.word "when", φ.tree, conjunction ls]).depth - 2, ?_⟩
    simp only [Tree.depth, Tree.depthItems]
    omega
  have hhead : Keyword.of? (.word "when") = some .when := by decide
  obtain ⟨left, m, hread⟩ := readWhen_trees h hls ⟨a.name ++ " effects", false⟩ fuel a.guards.length
    ⟨a.guards ++ [.blank], a.addEffects, a.deleteEffects⟩
  simp [Action.addEffect, readClause, readEffect, hfuel, readWithin, hhead, Reading.addGuard, hread]

theorem readPrecondition_single {a : Action} (ha : a.hasPreconditions = false) {head : String} {rest : List Tree}
    (hand : head ≠ "and") {ls : Literals}
    (hadd : ({} : Literals).add (a.name ++ " preconditions") (.list (.word head :: rest)) = .ok ls) :
    a.readPrecondition (.list (.word head :: rest)) =
      .ok { a with positivePreconditions := ls.positive, negativePreconditions := ls.negative } := by
  have hnone : a.positivePreconditions = [] ∧ a.negativePreconditions = [] := by
    simpa [Action.hasPreconditions, List.isEmpty_iff] using ha
  have hword : (Tree.word head).isWord "and" = false := by simpa [Tree.isWord] using hand
  simp [Action.readPrecondition, hnone.1, hnone.2, Literals.split, hword, Literals.addAll, hadd]

/-- **A literal becomes the one precondition**, with its negation drawn in if it is a denial. -/
theorem readPrecondition_tree (h : IsFormula l.items text) {a : Action} (ha : a.hasPreconditions = false) :
    ∃ ts asked, ts ≠ [] ∧ a.readPrecondition l.tree = .ok { a with
        positivePreconditions := if l.affirmed then [.list ts] else []
        negativePreconditions := if l.affirmed then [] else [.list ts] } ∧
      MAp.formula (.list ts) = .ok asked ∧ (asked = text ↔ ¬ (l.affirmed = true ∧ MAp.IsDenial l.items)) := by
  rcases l with ⟨_ | _, items⟩
  · obtain ⟨w, rest, rfl, -⟩ := h.head
    refine ⟨.word w :: rest, text, List.cons_ne_nil _ _, ?_, h.formula_eq, by simp⟩
    exact readPrecondition_single ha (by decide) (Problem.add_negation (.list (.word w :: rest)))
  · obtain ⟨w, rest, drawn, hnormal, hword, hformula, hdrawn⟩ := h.normalForm_eq
    obtain ⟨v, more, rfl, hkeyword⟩ := h.head
    refine ⟨.word w :: rest, drawn, List.cons_ne_nil _ _, ?_, hformula, by simpa using hdrawn⟩
    have hadd : ({} : Literals).add (a.name ++ " preconditions") (.list (.word v :: more)) =
        .ok ⟨[.list (.word w :: rest)], []⟩ := by
      have hnot : (Tree.word w).isWord "not" = false := by simpa [Tree.isWord] using (Keyword.of?_eq_none hword).2
      simp [Literals.add, hnormal, Tree.items, hnot]
    exact readPrecondition_single ha (Keyword.of?_eq_none hkeyword).1 hadd

end Literal

/-- **A literal is printed alike as precondition and as condition unless it is the belief in a negated atom.**  An
action without preconditions is given a literal as its precondition, and then an effect with the same literal as its
condition, whose body may be a conjunction.  Both are read, and all of it can be printed. -/
theorem Action.precondition_printed_as_condition_iff {φ : Literal} {text : String} (hφ : MAp.IsFormula φ.items text)
    {body : List Literal} (hbody : ∀ l ∈ body, ∃ text, MAp.IsFormula l.items text) {a : Action}
    (ha : a.hasPreconditions = false) :
    ∃ a₁ a₂ adds deletes asked condition, a.readPrecondition φ.tree = .ok a₁ ∧
      a₁.addEffect (.list [.word "when", φ.tree, Literal.conjunction body]) = .ok a₂ ∧
      a₂.addEffects = a.addEffects ++ adds ∧ a₂.deleteEffects = a.deleteEffects ++ deletes ∧
      adds.length + deletes.length = body.length ∧ MAp.PrintedUnder a₂ adds deletes condition ∧
      (∀ sheet, (MAp.preconditions a₂).perform sheet =
        (.ok (), { sheet with text := sheet.text ++ (" if " ++ asked ++ ";\n") })) ∧
      (asked = condition ↔ ¬ (φ.affirmed = true ∧ MAp.IsDenial φ.items)) := by
  obtain ⟨ts, asked, hne, hread, hasked, hiff⟩ := Literal.readPrecondition_tree hφ ha
  have hguard : MAp.AskedAt φ.affirmed φ.items (a.guards.length + 1)
      (a.guards ++ [.blank, MAp.asking φ.affirmed φ.items blankConditions]) :=
    ⟨by simp, blankConditions, .inl rfl, by simp [guardAt]⟩
  have hentries : ∀ e ∈ Literal.entries true (a.guards.length + 1) body ++
      Literal.entries false (a.guards.length + 1) body,
      e.guard = a.guards.length + 1 ∧ ∃ text, MAp.formula e.body = .ok text := by
    intro e he
    obtain ⟨hplace, l, hl, hbodyOf⟩ := (List.mem_append.1 he).elim Literal.of_mem_entries Literal.of_mem_entries
    obtain ⟨text, hl⟩ := hbody l hl
    exact ⟨hplace, text, hbodyOf ▸ hl.formula_eq⟩
  refine ⟨_, _, _, _, MAp.signText φ.affirmed ++ asked, MAp.signText φ.affirmed ++ text, hread,
    Literal.addEffect_when hφ hbody _, rfl, rfl, Literal.length_entries _ body,
    MAp.printedUnder_asked hφ hguard hentries, fun sheet => MAp.preconditions_single hne hasked ?_ sheet, ?_⟩
  · cases φ.affirmed <;> simp
  · rw [← hiff]
    exact String.append_right_inj _

/-- The belief of an agent that a door is not ajar. -/
def disbelief : Literal := ⟨true, [.word "B(a,", .list [.word "not", .list [.word "ajar"]]]⟩

theorem Action.precondition_printed_as_condition_iff_disbelief :
    MAp.IsFormula disbelief.items "B(a,not_['ajar'])" ∧ MAp.IsFormula [.word "ajar"] "ajar" ∧
    ∃ a₁ a₂ adds deletes asked condition,
      ({ name := "open", observers := .levels [] [] } : Action).readPrecondition disbelief.tree = .ok a₁ ∧
      a₁.addEffect (.list [.word "when", disbelief.tree, Literal.conjunction [⟨true, [.word "ajar"]⟩]]) = .ok a₂ ∧
      a₂.addEffects = [] ++ adds ∧ a₂.deleteEffects = [] ++ deletes ∧ adds.length + deletes.length = 1 ∧
      MAp.PrintedUnder a₂ adds deletes condition ∧
      (∀ sheet, (MAp.preconditions a₂).perform sheet =
        (.ok (), { sheet with text := sheet.text ++ (" if " ++ asked ++ ";\n") })) ∧
      (asked = condition ↔ ¬ (disbelief.affirmed = true ∧ MAp.IsDenial disbelief.items)) := by
  have hwords : Source.IsPlainWord "a" ∧ Source.IsPlainWord "ajar" := by decide +kernel
  have hdisbelief : MAp.IsFormula disbelief.items "B(a,not_['ajar'])" :=
    .denied (List.forall_mem_singleton.2 hwords.1) (List.forall_mem_singleton.2 hwords.2)
  have hajar : MAp.IsFormula [.word "ajar"] "ajar" := .atom hwords.2 rfl (List.forall_mem_nil _)
  exact ⟨hdisbelief, hajar, Action.precondition_printed_as_condition_iff hdisbelief
    (List.forall_mem_singleton.2 ⟨_, hajar⟩) rfl⟩

end Epistemic
