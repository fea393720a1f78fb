import Epistemic.Proofs.Rules
import Epistemic.Session
/-!
# Parentheses decide

Whether a file opens and closes its lists properly is decided by the parentheses of its text without comments.  The
rules of writing change neither where a list is closed that was never opened nor how many lists stay open: each takes
parentheses away that, other characters aside, stand as `(())` or `()`, also where the closing one that it takes is not
the partner of the opening one.
-/
namespace Epistemic.Source

/-! ## Depth -/

/-- How many lists are open behind a text that begins inside `d` of them, if it closes none that is not open. -/
def depthFrom : (d : Nat) → List Char → Option Nat
  | d, [] => some d
  | d, c :: cs =>
    if c = '(' then depthFrom (d + 1) cs
    else if c = ')' then if d = 0 then none else depthFrom (d - 1) cs
    else depthFrom d cs

@[simp] theorem depthFrom_nil (d : Nat) : depthFrom d [] = some d := rfl

@[simp] theorem depthFrom_open (d : Nat) (cs : List Char) : depthFrom d ('(' :: cs) = depthFrom (d + 1) cs := rfl

@[simp] theorem depthFrom_close_zero (cs : List Char) : depthFrom 0 (')' :: cs) = none := rfl

@[simp] theorem depthFrom_close_succ (d : Nat) (cs : List Char) : depthFrom (d + 1) (')' :: cs) = depthFrom d cs := rfl

theorem depthFrom_other {c : Char} (d : Nat) (cs : List Char) (ho : c ≠ '(') (hc : c ≠ ')') :
    depthFrom d (c :: cs) = depthFrom d cs := by
  rw [depthFrom, if_neg ho, if_neg hc]

theorem depthFrom_append : ∀ (a b : List Char) (d : Nat), depthFrom d (a ++ b) = (depthFrom d a).bind (depthFrom · b)
  | [], _, _ => rfl
  | c :: a, b, d => by
    by_cases ho : c = '('
    · subst ho
      rw [List.cons_append, depthFrom_open, depthFrom_open, depthFrom_append a b]
    · by_cases hc : c = ')'
      · subst hc
        cases d with
        | zero => rfl
        | succ d => rw [List.cons_append, depthFrom_close_succ, depthFrom_close_succ, depthFrom_append a b]
      · rw [List.cons_append, depthFrom_other d _ ho hc, depthFrom_other d _ ho hc, depthFrom_append a b]

theorem depthFrom_of_no_parenthesis : ∀ (cs : List Char) (d : Nat), (∀ c ∈ cs, isParenthesis c = false) →
    depthFrom d cs = some d
  | [], _, _ => rfl
  | c :: cs, d, h => by
    have hc := h c List.mem_cons_self
    simp only [isParenthesis, Bool.or_eq_false_iff, beq_eq_false_iff_ne] at hc
    rw [depthFrom_other d cs hc.1 hc.2, depthFrom_of_no_parenthesis cs d (fun x hx => h x (List.mem_cons_of_mem c hx))]

theorem depthFrom_append_left {w : List Char} (h : ∀ c ∈ w, isParenthesis c = false) (d : Nat) (k : List Char) :
    depthFrom d (w ++ k) = depthFrom d k := by
  rw [depthFrom_append, depthFrom_of_no_parenthesis w d h]
  rfl

/-- Somewhere in the text more lists have been closed than opened. -/
def Overclosed (cs : List Char) : Prop := ∃ p, p <+: cs ∧ p.count '(' < p.count ')'

/-- The text closes just the lists it opens. -/
def Balanced (cs : List Char) : Prop := ¬ Overclosed cs ∧ cs.count '(' = cs.count ')'

theorem depthFrom_none_iff : ∀ (cs : List Char) (d : Nat),
    depthFrom d cs = none ↔ ∃ p, p <+: cs ∧ d + p.count '(' < p.count ')'
  | [], d => by
    refine ⟨fun h => absurd h (Option.some_ne_none d), ?_⟩
    rintro ⟨p, hp, hlt⟩
    rw [List.prefix_nil.1 hp] at hlt
    simp at hlt
  | c :: cs, d => by
    -- a prefix is empty, and then closes nothing, or begins with `c`
    have hsplit : (∃ p, p <+: c :: cs ∧ d + p.count '(' < p.count ')') ↔
        ∃ p, p <+: cs ∧ d + (c :: p).count '(' < (c :: p).count ')' := by
      constructor
      · rintro ⟨p, hp, hlt⟩
        cases p with
        | nil => simp at hlt
        | cons x p =>
          obtain ⟨rfl, hp'⟩ := List.cons_prefix_cons.1 hp
          exact ⟨p, hp', hlt⟩
      · rintro ⟨p, hp, hlt⟩
        exact ⟨c :: p, List.cons_prefix_cons.2 ⟨rfl, hp⟩, hlt⟩
    rw [hsplit]
    by_cases ho : c = '('
    · subst ho
      rw [depthFrom_open, depthFrom_none_iff cs (d + 1)]
      simp only [List.count_cons, beq_self_eq_true, if_true]
      exact exists_congr fun p => and_congr_right fun _ => by
        have : ('(' == ')') = false := rfl
        rw [this]
        simp only [Bool.false_eq_true, if_false]
        omega
    · by_cases hc : c = ')'
      · subst hc
        have hcount : ∀ p : List Char, (')' :: p).count '(' = p.count '(' ∧ (')' :: p).count ')' = p.count ')' + 1 :=
          fun p => ⟨List.count_cons_of_ne (by decide), List.count_cons_self⟩
        cases d with
        | zero =>
          refine ⟨fun _ => ⟨[], List.nil_prefix, by decide⟩, fun _ => rfl⟩
        | succ d =>
          rw [depthFrom_close_succ, depthFrom_none_iff cs d]
          exact exists_congr fun p => and_congr_right fun _ => by rw [(hcount p).1, (hcount p).2]; omega
      · rw [depthFrom_other d cs ho hc, depthFrom_none_iff cs d]
        exact exists_congr fun p => and_congr_right fun _ => by
          rw [List.count_cons_of_ne ho, List.count_cons_of_ne hc]

theorem depthFrom_eq_none_iff (cs : List Char) : depthFrom 0 cs = none ↔ Overclosed cs := by
  rw [depthFrom_none_iff]
  simp only [Nat.zero_add, Overclosed]

theorem depthFrom_some_count : ∀ (cs : List Char) (d e : Nat), depthFrom d cs = some e →
    d + cs.count '(' = e + cs.count ')'
  | [], d, e, h => by cases h; rfl
  | c :: cs, d, e, h => by
    by_cases ho : c = '('
    · subst ho
      have := depthFrom_some_count cs (d + 1) e h
      rw [List.count_cons_self, List.count_cons_of_ne (by decide : '(' ≠ ')')]
      omega
    · by_cases hc : c = ')'
      · subst hc
        cases d with
        | zero => cases h
        | succ d =>
          have := depthFrom_some_count cs d e h
          rw [List.count_cons_self, List.count_cons_of_ne (by decide : ')' ≠ '(')]
          omega
      · rw [depthFrom_other d cs ho hc] at h
        rw [List.count_cons_of_ne ho, List.count_cons_of_ne hc]
        exact depthFrom_some_count cs d e h

/-- **A text with a depth closes no list that is not open, and its depth is how many it leaves open.** -/
theorem depthFrom_eq_some_iff (cs : List Char) (d : Nat) :
    depthFrom 0 cs = some d ↔ ¬ Overclosed cs ∧ cs.count '(' = d + cs.count ')' := by
  rw [← depthFrom_eq_none_iff]
  constructor
  · intro h
    have := depthFrom_some_count cs 0 d h
    exact ⟨by rw [h]; exact Option.some_ne_none d, by omega⟩
  · rintro ⟨hne, hcount⟩
    obtain ⟨e, he⟩ := Option.ne_none_iff_exists'.1 hne
    have := depthFrom_some_count cs 0 e he
    rw [he, show e = d by omega]

theorem balanced_iff (cs : List Char) : Balanced cs ↔ depthFrom 0 cs = some 0 := by
  rw [depthFrom_eq_some_iff, Nat.zero_add, Balanced]

/-! ## The rules of writing -/

/-- Two texts that may stand for each other as far as nesting goes. -/
def SameNesting (a b : List Char) : Prop := ∀ d, depthFrom d a = depthFrom d b

theorem SameNesting.append {a a' b b' : List Char} (ha : SameNesting a a') (hb : SameNesting b b') :
    SameNesting (a ++ b) (a' ++ b') := by
  intro d
  rw [depthFrom_append, depthFrom_append, ha d, funext hb]

/-- A rule that writes, in place of what it matches, something of the same nesting. -/
def Rule.KeepsNesting (rule : Rule) : Prop :=
  ∀ cs new rest, rule cs = some (new, rest) → ∃ matched, cs = matched ++ rest ∧ SameNesting matched new

/-- **What a closing parenthesis closes behind a text that opens none** does not depend on where it stands: at the end
of the text it closes one list more, as it would before it. -/
theorem depthFrom_close_end : ∀ (inner : List Char) (d : Nat), '(' ∉ inner →
    depthFrom (d + 1) (inner ++ [')']) = depthFrom d inner
  | [], _, _ => rfl
  | c :: inner, d, h => by
    have ho : c ≠ '(' := fun he => h (by rw [he]; exact List.mem_cons_self)
    have hi : '(' ∉ inner := fun hm => h (List.mem_cons_of_mem c hm)
    by_cases hc : c = ')'
    · subst hc
      cases d with
      | zero =>
        -- one more is closed than open in any case, in the end or here
        have hcount : ¬ ∃ e, depthFrom 0 (inner ++ [')']) = some e := by
          rintro ⟨e, he⟩
          have := depthFrom_some_count _ _ _ he
          rw [List.count_append, List.count_append, List.count_eq_zero.2 hi] at this
          simp at this
        rw [List.cons_append, depthFrom_close_succ, depthFrom_close_zero]
        cases hd : depthFrom 0 (inner ++ [')']) with
        | none => rfl
        | some e => exact absurd ⟨e, hd⟩ hcount
      | succ d => rw [List.cons_append, depthFrom_close_succ, depthFrom_close_succ, depthFrom_close_end inner d hi]
    · rw [List.cons_append, depthFrom_other _ _ ho hc, depthFrom_other _ _ ho hc, depthFrom_close_end inner d hi]

theorem isParenthesis_of_isBlank {c : Char} (h : Text.isBlank c = true) : isParenthesis c = false := by
  unfold isParenthesis
  rw [Bool.or_eq_false_iff, beq_eq_false_iff_ne, beq_eq_false_iff_ne]
  constructor
  · rintro rfl; exact absurd h (by decide)
  · rintro rfl; exact absurd h (by decide)

theorem agentType_keepsNesting : Rule.KeepsNesting agentType := by
  intro cs new rest h
  obtain ⟨before, blanks, -, -, hb, rfl, rfl⟩ := agentType_some h
  refine ⟨'[' :: (before ++ ("-agent".toList ++ (blanks ++ [']']))), ?_, ?_⟩
  · simp only [List.append_assoc, List.cons_append, List.nil_append]
  · have hall : "-agent".toList.all (!isParenthesis ·) = true := by decide
    have htype : ∀ c ∈ "-agent".toList, isParenthesis c = false := by simpa using hall
    have hsame : SameNesting ("-agent".toList ++ (blanks ++ [']'])) [']'] := fun d => by
      rw [depthFrom_append_left htype, depthFrom_append_left fun c hc => isParenthesis_of_isBlank (hb c hc)]
    exact SameNesting.append (a := '[' :: before) (fun _ => rfl) hsame

theorem doubleParentheses_keepsNesting : Rule.KeepsNesting doubleParentheses := by
  intro cs new rest h
  obtain ⟨b₁, b₂, hb₁, hb₂, hnew, -, rfl⟩ := doubleParentheses_some h
  refine ⟨'(' :: (b₁ ++ '(' :: (new ++ ')' :: (b₂ ++ [')']))), ?_, fun d => ?_⟩
  · simp only [List.append_assoc, List.cons_append, List.nil_append]
  · have hblank : ∀ {b : List Char}, (∀ c ∈ b, Text.isBlank c = true) → ∀ c ∈ b, isParenthesis c = false :=
      fun hb c hc => isParenthesis_of_isBlank (hb c hc)
    rw [depthFrom_open, depthFrom_append_left (hblank hb₁), depthFrom_open, depthFrom_append_left hnew,
      depthFrom_close_succ, depthFrom_append_left (hblank hb₂), depthFrom_close_succ, depthFrom_nil,
      depthFrom_of_no_parenthesis new d hnew]

theorem operatorParentheses_keepsNesting : Rule.KeepsNesting operatorParentheses := by
  intro cs new rest h
  obtain ⟨before, inner, -, -, -, hinner, -, rfl, rfl⟩ := operatorParentheses_some h
  refine ⟨'[' :: (before ++ ']' :: '(' :: (inner ++ [')'])), ?_, ?_⟩
  · simp only [List.append_assoc, List.cons_append, List.nil_append]
  · have hsame : SameNesting (']' :: '(' :: (inner ++ [')'])) (']' :: inner) := fun d => by
      have hbracket : ∀ tail, depthFrom d (']' :: tail) = depthFrom d tail :=
        fun tail => depthFrom_other d tail (by decide) (by decide)
      rw [hbracket, hbracket, depthFrom_open, depthFrom_close_end inner d hinner]
    exact SameNesting.append (a := '[' :: before) (fun _ => rfl) hsame

theorem Passes.sameNesting {rule : Rule} (hkeeps : rule.KeepsNesting) {cs after : List Char} {n : Nat}
    (h : Passes rule cs after n) : SameNesting cs after := by
  induction h with
  | nil => exact fun _ => rfl
  | keep _ _ ih => exact SameNesting.append (a := [_]) (fun _ => rfl) ih
  | replace hr _ ih =>
    obtain ⟨matched, hcs, hsame⟩ := hkeeps _ _ _ hr
    rw [hcs]
    exact hsame.append ih

theorem pass_sameNesting {rule : Rule} (hrule : rule.Consumes) (hkeeps : rule.KeepsNesting) (cs : List Char) :
    SameNesting cs (pass rule cs).1 :=
  (passes_pass hrule cs).sameNesting hkeeps

/-- **Exhausting a rule keeps the nesting** that each of its replacements keeps. -/
theorem exhaust_sameNesting {rule : Rule} (hrule : rule.Consumes) (hkeeps : rule.KeepsNesting) (cs : List Char) :
    SameNesting cs (exhaust rule cs) :=
  exhaustWithin_induction (SameNesting cs) (fun cs' h d => (h d).trans (pass_sameNesting hrule hkeeps cs' d)) _ cs
    fun _ => rfl

theorem normalize_sameNesting (cs : List Char) : SameNesting cs (normalize .levels cs) := by
  intro d
  unfold normalize
  simp only
  rw [← exhaust_sameNesting operatorParentheses_consumes operatorParentheses_keepsNesting _ d,
    ← exhaust_sameNesting doubleParentheses_consumes doubleParentheses_keepsNesting _ d,
    ← pass_sameNesting agentType_consumes agentType_keepsNesting _ d]

/-! ## Tokens and trees -/

/-- How many lists are open behind tokens that begin inside `d` of them, if they close none that is not open. -/
def tokenDepthFrom : (d : Nat) → List Token → Option Nat
  | d, [] => some d
  | d, .openList :: ts => tokenDepthFrom (d + 1) ts
  | 0, .closeList :: _ => none
  | d + 1, .closeList :: ts => tokenDepthFrom d ts
  | d, .openAgents :: ts => tokenDepthFrom d ts
  | d, .closeAgents :: ts => tokenDepthFrom d ts
  | d, .word _ :: ts => tokenDepthFrom d ts

theorem tokenDepthFrom_finishedWord (letters : List Char) (d : Nat) (ts : List Token) :
    tokenDepthFrom d (finishedWord letters ++ ts) = tokenDepthFrom d ts := by
  unfold finishedWord
  split
  · rfl
  · rw [List.singleton_append, tokenDepthFrom]

theorem ne_of_mark?_none {c : Char} (h : mark? c = none) : c ≠ '(' ∧ c ≠ ')' ∧ c ≠ '[' ∧ c ≠ ']' := by
  refine ⟨?_, ?_, ?_, ?_⟩ <;> rintro rfl <;> cases h

theorem isParenthesis_of_mark?_none {c : Char} (h : mark? c = none) : isParenthesis c = false := by
  obtain ⟨ho, hc, -, -⟩ := ne_of_mark?_none h
  rw [isParenthesis, Bool.or_eq_false_iff, beq_eq_false_iff_ne, beq_eq_false_iff_ne]
  exact ⟨ho, hc⟩

/-- **Tokens have the depth of their text.** -/
theorem tokenDepthFrom_tokensFrom : ∀ (cs letters : List Char) (d : Nat),
    tokenDepthFrom d (tokensFrom letters cs) = depthFrom d cs
  | [], letters, d => by
    have h := tokenDepthFrom_finishedWord letters d []
    rw [List.append_nil] at h
    exact h
  | c :: cs, letters, d => by
    unfold tokensFrom
    cases hm : mark? c with
    | some t =>
      simp only
      rw [tokenDepthFrom_finishedWord]
      unfold mark? at hm
      by_cases ho : c = '('
      · subst ho
        cases hm
        rw [tokenDepthFrom, tokenDepthFrom_tokensFrom cs, depthFrom_open]
      · by_cases hc : c = ')'
        · subst hc
          cases hm
          cases d with
          | zero => rfl
          | succ d => rw [tokenDepthFrom, tokenDepthFrom_tokensFrom cs, depthFrom_close_succ]
        · rw [depthFrom_other d cs ho hc, ← tokenDepthFrom_tokensFrom cs [] d]
          rw [if_neg (by simpa using ho), if_neg (by simpa using hc)] at hm
          split at hm
          · cases hm; rw [tokenDepthFrom]
          · split at hm
            · cases hm; rw [tokenDepthFrom]
            · cases hm
    | none =>
      obtain ⟨ho, hc, -, -⟩ := ne_of_mark?_none hm
      rw [depthFrom_other d cs ho hc]
      simp only
      split
      · rw [tokenDepthFrom_finishedWord, tokenDepthFrom_tokensFrom cs]
      · rw [tokenDepthFrom_tokensFrom cs]

/-- One token: where the depth ends, a list is missing its opening; elsewhere it is that of the lists around. -/
theorem Nest.step_depth (n : Nest) (t : Token) (ts : List Token) :
    (n.step t = .error .missingOpen ∧ tokenDepthFrom n.outer.length (t :: ts) = none) ∨
      ∃ m, n.step t = .ok m ∧ tokenDepthFrom n.outer.length (t :: ts) = tokenDepthFrom m.outer.length ts := by
  cases t with
  | openList => exact .inr ⟨_, rfl, rfl⟩
  | closeList =>
    cases ho : n.outer with
    | nil => exact .inl ⟨by rw [step, ho], rfl⟩
    | cons around outer => exact .inr ⟨_, by rw [step, ho], rfl⟩
  | openAgents => exact .inr ⟨_, rfl, by rw [tokenDepthFrom]⟩
  | closeAgents => exact .inr ⟨_, rfl, by rw [tokenDepthFrom]⟩
  | word w =>
    rw [step, tokenDepthFrom]
    split
    · exact .inr ⟨_, rfl, rfl⟩
    · exact .inr ⟨_, rfl, rfl⟩

/-- **Tokens in order**: they are refused exactly where their depth ends, for a missing opening, and otherwise leave as
many lists open as their depth says. -/
theorem Nest.run_depth : ∀ (ts : List Token) (n : Nest),
    (run ts n = .error .missingOpen ∧ tokenDepthFrom n.outer.length ts = none) ∨
      ∃ m, run ts n = .ok m ∧ tokenDepthFrom n.outer.length ts = some m.outer.length
  | [], n => .inr ⟨n, rfl, by rw [tokenDepthFrom]⟩
  | t :: ts, n => by
    unfold run
    rcases n.step_depth t ts with ⟨hstep, hdepth⟩ | ⟨m, hstep, hdepth⟩
    · exact .inl ⟨by rw [hstep], hdepth⟩
    · rw [hstep, hdepth]
      exact run_depth ts m

/-- **The depth of tokens decides their fault**: none, more than zero, or zero. -/
theorem nest_depth (ts : List Token) :
    (nest ts = .error .missingOpen ∧ tokenDepthFrom 0 ts = none) ∨
    (nest ts = .error .missingClose ∧ ∃ d, tokenDepthFrom 0 ts = some (d + 1)) ∨
    (((∃ t, nest ts = .ok t) ∨ nest ts = .error .malformed) ∧ tokenDepthFrom 0 ts = some 0) := by
  unfold nest
  rcases Nest.run_depth ts {} with ⟨hrun, hdepth⟩ | ⟨m, hrun, hdepth⟩
  · exact .inl ⟨by rw [hrun], hdepth⟩
  · rw [hrun]
    change tokenDepthFrom 0 ts = _ at hdepth
    simp only [hdepth]
    unfold Nest.finish
    split
    · rename_i around outer ho
      exact .inr (.inl ⟨rfl, outer.length, by rw [ho, List.length_cons]⟩)
    · rename_i t ho _
      exact .inr (.inr ⟨.inl ⟨t, rfl⟩, by rw [ho, List.length_nil]⟩)
    · rename_i ho _
      exact .inr (.inr ⟨.inr rfl, by rw [ho, List.length_nil]⟩)

theorem scan_depth (text : String) :
    tokenDepthFrom 0 (tokens (normalize .levels (plain (unifyNewlines text.toList)))) =
      depthFrom 0 (plain (unifyNewlines text.toList)) := by
  rw [tokens, tokenDepthFrom_tokensFrom, ← normalize_sameNesting]

/-- A text is refused for a missing opening exactly if it closes a list that it has not opened. -/
theorem scan_missingOpen_iff (text : String) :
    scan .levels text = .error .missingOpen ↔ Overclosed (plain (unifyNewlines text.toList)) := by
  rw [← depthFrom_eq_none_iff, ← scan_depth, scan]
  rcases nest_depth (tokens (normalize .levels (plain (unifyNewlines text.toList)))) with
    ⟨h, hd⟩ | ⟨h, d, hd⟩ | ⟨⟨t, h⟩ | h, hd⟩ <;> rw [h, hd] <;> simp

/-- A text is refused for a missing closing exactly if it closes no list too many, and leaves one open. -/
theorem scan_missingClose_iff (text : String) :
    scan .levels text = .error .missingClose ↔
      ¬ Overclosed (plain (unifyNewlines text.toList)) ∧
        (plain (unifyNewlines text.toList)).count ')' < (plain (unifyNewlines text.toList)).count '(' := by
  have hcount : (¬ Overclosed (plain (unifyNewlines text.toList)) ∧
      (plain (unifyNewlines text.toList)).count ')' < (plain (unifyNewlines text.toList)).count '(') ↔
        ∃ d, depthFrom 0 (plain (unifyNewlines text.toList)) = some (d + 1) := by
    simp only [depthFrom_eq_some_iff]
    constructor
    · rintro ⟨ho, hlt⟩
      exact ⟨_, ho, by rw [Nat.sub_add_cancel (Nat.sub_pos_of_lt hlt), Nat.sub_add_cancel (Nat.le_of_lt hlt)]⟩
    · rintro ⟨d, ho, heq⟩
      exact ⟨ho, by omega⟩
  rw [hcount, ← scan_depth, scan]
  rcases nest_depth (tokens (normalize .levels (plain (unifyNewlines text.toList)))) with
    ⟨h, hd⟩ | ⟨h, d, hd⟩ | ⟨⟨t, h⟩ | h, hd⟩ <;> rw [h, hd] <;> simp

theorem scan_of_balanced (text : String) (h : Balanced (plain (unifyNewlines text.toList))) :
    (∃ t, scan .levels text = .ok t) ∨ scan .levels text = .error .malformed := by
  rw [balanced_iff, ← scan_depth] at h
  rcases nest_depth (tokens (normalize .levels (plain (unifyNewlines text.toList)))) with
    ⟨-, hd⟩ | ⟨-, d, hd⟩ | ⟨hread, -⟩
  · rw [h] at hd; cases hd
  · rw [h] at hd; cases hd
  · exact hread

theorem exhaust_balanced_iff {rule : Rule} (hrule : rule.Consumes) (hkeeps : rule.KeepsNesting) (cs : List Char) :
    Balanced (exhaust rule cs) ↔ Balanced cs := by
  rw [balanced_iff, balanced_iff, ← exhaust_sameNesting hrule hkeeps cs 0]

end Epistemic.Source

namespace Epistemic.Session

open Source

theorem perform_scan (file text : String) (s : Session) :
    (scan file (some text)).perform s =
      match Source.scan s.task.dialect text with
      | .ok tree => (.ok (some tree), s)
      | .error e => (.ok none, { s with report := s.report ++ e.message ++ "\n" }) := by
  unfold scan
  simp only
  rw [Work.perform_bind_ok (Work.perform_get s)]
  cases Source.scan s.task.dialect text with
  | ok tree => rfl
  | error e => rfl

/-- **Faults of nesting are told apart by what is reported.** -/
theorem scan_reports_iff (file text : String) (s : Session) (f : NestingFault) :
    (scan file (some text)).perform s = (.ok none, { s with report := s.report ++ f.message ++ "\n" }) ↔
      Source.scan s.task.dialect text = .error f := by
  rw [perform_scan]
  cases Source.scan s.task.dialect text with
  | ok tree => simp
  | error e =>
    simp only [Prod.mk.injEq, true_and, Session.mk.injEq, and_true, Except.error.injEq, String.append_left_inj,
      String.append_right_inj]
    constructor
    · intro h
      cases e <;> cases f <;> first | rfl | exact absurd h (by decide)
    · rintro rfl; rfl

/-- **Parentheses decide what is reported of a text**: a missing opening exactly if some beginning of the text without
comments closes more lists than it opens, a missing closing exactly if none does and the whole opens more than it
closes; and a balanced text is read or malformed.  Neither exhausting the rule for double parentheses nor the one for
those behind an operator makes a balanced text of another or the reverse. -/
theorem scan_decided_by_parentheses (file text : String) (s : Session) (hs : s.task.dialect = .levels) :
    let cs := plain (unifyNewlines text.toList)
    let reported (message : String) := { s with report := s.report ++ message ++ "\n" }
    let outcome := (scan file (some text)).perform s
    (outcome = (.ok none, reported "Missing open parentheses") ↔ ∃ p, p <+: cs ∧ p.count '(' < p.count ')') ∧
    (outcome = (.ok none, reported "Missing close parentheses") ↔
      (¬ ∃ p, p <+: cs ∧ p.count '(' < p.count ')') ∧ cs.count ')' < cs.count '(') ∧
    ((¬ ∃ p, p <+: cs ∧ p.count '(' < p.count ')') → ¬ cs.count ')' < cs.count '(' →
      (∃ tree, outcome = (.ok (some tree), s)) ∨ outcome = (.ok none, reported "Malformed expression")) ∧
    (∀ ds, Balanced (exhaust doubleParentheses ds) ↔ Balanced ds) ∧
    (∀ ds, Balanced (exhaust operatorParentheses ds) ↔ Balanced ds) := by
  intro cs reported outcome
  refine ⟨?_, ?_, fun ho hc => ?_, ?_, ?_⟩
  · rw [← Overclosed, ← scan_missingOpen_iff, ← hs]
    exact scan_reports_iff file text s .missingOpen
  · rw [← Overclosed, ← scan_missingClose_iff, ← hs]
    exact scan_reports_iff file text s .missingClose
  · have hle : ¬ cs.count '(' < cs.count ')' := fun h => ho ⟨cs, List.prefix_refl cs, h⟩
    have hread := scan_of_balanced text ⟨ho, Nat.le_antisymm (Nat.not_lt.1 hc) (Nat.not_lt.1 hle)⟩
    rw [← hs] at hread
    rcases hread with ⟨tree, htree⟩ | hfault
    · refine .inl ⟨tree, ?_⟩
      show (scan file (some text)).perform s = _
      rw [perform_scan, htree]
    · exact .inr ((scan_reports_iff file text s .malformed).2 hfault)
  · exact exhaust_balanced_iff doubleParentheses_consumes doubleParentheses_keepsNesting
  · exact exhaust_balanced_iff operatorParentheses_consumes operatorParentheses_keepsNesting

/-- The parentheses of `([a](p) q))` close a list too many, although the rule for operators takes two of them away. -/
theorem scan_decided_by_parentheses_overclosed :
    (scan "f" (some "([a](p) q))")).perform { task := { dialect := .levels } } =
      (.ok none, { task := { dialect := .levels }, report := "" ++ "Missing open parentheses" ++ "\n" }) := by
  refine (scan_decided_by_parentheses "f" "([a](p) q))" { task := { dialect := .levels } } rfl).1.2 ?_
  exact ⟨"([a](p) q))".toList, by decide, by decide⟩

end Epistemic.Session
