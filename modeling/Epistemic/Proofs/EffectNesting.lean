import Epistemic.Pdkb.Action
import Epistemic.Proofs.Characters
import Epistemic.Proofs.Conditions
import Epistemic.Proofs.Parentheses
/-!
# The nesting of effects

What an effect opens it closes, with the conditions before it and the beliefs behind it, and a conditional effect has a
parenthesis more at its end for its condition.  That parenthesis is written also behind effects without a condition,
once one before them had any: the effects of an action are balanced exactly if no effect without a condition stands
behind one with a condition (`effects_balanced_iff`).
-/
namespace Epistemic
namespace Pdkb

open Source (depthFrom depthFrom_append depthFrom_of_no_parenthesis isParenthesis)

/-! ## Texts -/

/-- A text without parentheses. -/
def Clear (s : String) : Prop := ∀ c ∈ s.toList, isParenthesis c = false

instance (s : String) : Decidable (Clear s) :=
  decidable_of_iff (s.toList.all (!isParenthesis ·) = true) (by simp [Clear])

theorem clear_iff {s : String} : Clear s ↔ '(' ∉ s.toList ∧ ')' ∉ s.toList := by
  constructor
  · intro h
    exact ⟨fun hm => absurd (h '(' hm) (by decide), fun hm => absurd (h ')' hm) (by decide)⟩
  · rintro ⟨hopen, hclose⟩ c hc
    simp only [isParenthesis, Bool.or_eq_false_iff, beq_eq_false_iff_ne]
    exact ⟨fun he => hopen (he ▸ hc), fun he => hclose (he ▸ hc)⟩

/-- A text behind which as many lists are open as before it. -/
def Level (s : String) : Prop := ∀ d, depthFrom d s.toList = some d

theorem Clear.level {s : String} (h : Clear s) : Level s := fun d => depthFrom_of_no_parenthesis s.toList d h

theorem Clear.append {s t : String} (hs : Clear s) (ht : Clear t) : Clear (s ++ t) := Avoids.append hs ht

theorem depthFrom_then {s : String} {d e : Nat} (h : depthFrom d s.toList = some e) (t : String) :
    depthFrom d (s ++ t).toList = depthFrom e t.toList := by
  rw [String.toList_append, depthFrom_append, h, Option.bind_some]

theorem depthFrom_level {s : String} (h : Level s) (t : String) (d : Nat) :
    depthFrom d (s ++ t).toList = depthFrom d t.toList := depthFrom_then (h d) t

theorem Level.append {s t : String} (hs : Level s) (ht : Level t) : Level (s ++ t) := by
  intro d
  rw [depthFrom_level hs, ht d]

theorem depthFrom_closings (n d : Nat) : depthFrom (d + n) (closings n).toList = some d := by
  induction n with
  | zero => rfl
  | succ n ih =>
    rw [closings, String.toList_ofList, List.replicate_succ, ← Nat.add_assoc]
    rwa [closings, String.toList_ofList] at ih

theorem unshown_isParenthesis : Unshown isParenthesis := ⟨by decide, by decide⟩

theorem clear_shown {t : Tree} (h : t.AllWords Clear) : Clear t.shown := avoids_shown unshown_isParenthesis h

/-! ## Formulas -/

/-- The word of an operator, with no parenthesis but that of its mark. -/
def IsOperatorMark (w : String) : Prop :=
  ∃ mark agents, w.toList = mark :: '(' :: agents ∧ (mark = 'B' ∨ mark = 'C') ∧ ∀ c ∈ agents, isParenthesis c = false

/-- The items of a formula in which every operator is written as one: trees without operators, or an operator before a
formula, in the same list or in a list of its own. -/
inductive IsTold : List Tree → Prop
  | plain {ts : List Tree} (h : ∀ t ∈ ts, t.AllWords Clear) (hsign : ∀ xs, .list xs ∈ ts → .word "-" ∉ xs) : IsTold ts
  | believed {op w : String} {rest : List Tree} (hop : IsOperatorMark op) (h : IsTold (.word w :: rest)) :
      IsTold (.word op :: .word w :: rest)
  | enclosed {op : String} {inner : List Tree} (hop : IsOperatorMark op) (hne : inner ≠ []) (h : IsTold inner) :
      IsTold [.word op, .list inner]

/-- A character with a hyphen written as a negation. -/
def signChar (c : Char) : Char := if c = '-' then '!' else c

theorem replaceFrom_hyphen (cs : List Char) : Text.replaceFrom ['-'] ['!'] 0 cs = cs.map signChar := by
  induction cs with
  | nil => rfl
  | cons c cs ih =>
    by_cases hc : c = '-'
    · subst hc
      simp [Text.replaceFrom, List.isPrefixOf, ih, signChar]
    · have hpiece : ['-'].isPrefixOf (c :: cs) = false := by simpa [List.isPrefixOf] using Ne.symm hc
      rw [Text.replaceFrom, hpiece, if_neg Bool.false_ne_true, ih, List.map_cons, signChar, if_neg hc]

theorem sign_word (w : String) : sign false (.word w) = .ok (.word (String.ofList (w.toList.map signChar))) := by
  unfold sign
  by_cases hmark : (Tree.word w).mentions "-" = true
  · simp [hmark, Text.replaceAll, replaceFrom_hyphen]
  · have hnone : '-' ∉ w.toList := fun hm => hmark ((Text.occurs_singleton '-' w.toList).2 hm)
    have hsame : w.toList.map signChar = w.toList := by
      refine (List.map_congr_left fun c hc => if_neg ?_).trans (List.map_id _)
      rintro rfl
      exact hnone hc
    simp [hmark, hsame]

theorem isParenthesis_signChar {c : Char} (h : isParenthesis c = false) : isParenthesis (signChar c) = false := by
  unfold signChar
  split
  · rfl
  · exact h

theorem IsOperatorMark.signed {w : String} (h : IsOperatorMark w) :
    IsOperatorMark (String.ofList (w.toList.map signChar)) := by
  obtain ⟨mark, agents, hw, hmark, hagents⟩ := h
  refine ⟨mark, agents.map signChar, ?_, hmark, ?_⟩
  · have hkept : signChar mark = mark := by rcases hmark with rfl | rfl <;> rfl
    rw [String.toList_ofList, hw, List.map_cons, List.map_cons, hkept]
    rfl
  · intro c hc
    obtain ⟨x, hx, rfl⟩ := List.mem_map.1 hc
    exact isParenthesis_signChar (hagents x hx)

/-- The agents of an operator in brackets; the comma behind the last of them goes. -/
def inBrackets (as : List Char) : String := String.ofList (('[' :: as).dropLast ++ [']'])

theorem agents_eq {mark : Char} {as : List Char} {w : String} (hw : w.toList = mark :: '(' :: as) (hnone : '(' ∉ as)
    {piece : String} (hpiece : piece.toList = [mark, '(']) : agents piece w = inBrackets as := by
  have hreplaced : Text.replaceAll piece.toList ['['] w.toList = '[' :: as := by
    rw [hw, hpiece, Text.replaceAll, Text.replaceFrom, if_pos (by simp [List.isPrefixOf])]
    show ['['] ++ Text.replaceFrom [mark, '('] ['['] 0 as = _
    rw [Text.replaceFrom_of_not_mem (by simp : '(' ∈ [mark, '(']) hnone]
    rfl
  rw [agents, hreplaced, inBrackets]

/-- **An operator is written as its agents in brackets**, whichever mark opens it. -/
theorem operator?_eq {mark : Char} {as : List Char} {w : String} (hw : w.toList = mark :: '(' :: as)
    (hmark : mark = 'B' ∨ mark = 'C') (hnone : '(' ∉ as) : operator? (.word w) = .ok (some (inBrackets as)) := by
  rcases hmark with rfl | rfl
  · have hcommon : (Tree.word w).hasCommonBelief = false := by
      have hrest : Text.occurs ['C', '('] as = false :=
        Bool.eq_false_iff.2 fun ho => hnone (Text.mem_of_occurs (by decide) ho)
      simp [Tree.hasCommonBelief, Tree.mentions, hw, Text.occurs, List.isPrefixOf, hrest]
    have hbelief : (Tree.word w).hasBelief = true := by
      simp [Tree.hasBelief, Tree.mentions, hw, Text.occurs, List.isPrefixOf]
    simpa [operator?, hcommon, hbelief] using agents_eq hw hnone rfl
  · have hcommon : (Tree.word w).hasCommonBelief = true := by
      simp [Tree.hasCommonBelief, Tree.mentions, hw, Text.occurs, List.isPrefixOf]
    simpa [operator?, hcommon] using agents_eq hw hnone rfl

theorem clear_inBrackets {as : List Char} (has : ∀ c ∈ as, isParenthesis c = false) : Clear (inBrackets as) := by
  intro c hc
  rw [inBrackets, String.toList_ofList, List.mem_append] at hc
  rcases hc with hc | hc
  · rcases List.mem_cons.1 (List.dropLast_subset _ hc) with rfl | hc
    · rfl
    · exact has c hc
  · rw [List.mem_singleton.1 hc]
    rfl

theorem operator?_mark {w : String} (h : IsOperatorMark w) :
    ∃ text, operator? (.word w) = .ok (some text) ∧ Clear text := by
  obtain ⟨mark, as, hw, hmark, has⟩ := h
  have hnone : '(' ∉ as := fun hm => absurd (has '(' hm) (by decide)
  exact ⟨inBrackets as, operator?_eq hw hmark hnone, clear_inBrackets has⟩

theorem operator?_clear {t : Tree} (h : t.AllWords Clear) : operator? t = .ok none := by
  have hnone : ∀ op : String, '(' ∈ op.toList → t.mentions op = false := by
    intro op hop
    refine Bool.eq_false_iff.2 fun hmentions => ?_
    cases t with
    | word w => exact (clear_iff.1 h).1 (Text.mem_of_occurs hop hmentions)
    | list xs => exact (clear_iff.1 (Tree.allWords_list.1 h _ (List.contains_iff_mem.1 hmentions))).1 hop
  simp [operator?, Tree.hasCommonBelief, Tree.hasBelief, hnone]

/-- A tree without operators as it is written: its words, with hyphens as negations. -/
theorem exists_sign {t : Tree} (h : t.AllWords Clear) (hsign : ∀ xs, t = .list xs → .word "-" ∉ xs) :
    ∃ t', sign false t = .ok t' ∧ t'.AllWords Clear := by
  cases t with
  | word w =>
    refine ⟨_, sign_word w, fun c hc => ?_⟩
    rw [String.toList_ofList] at hc
    obtain ⟨x, hx, rfl⟩ := List.mem_map.1 hc
    exact isParenthesis_signChar (h x hx)
  | list xs =>
    refine ⟨.list xs, ?_, h⟩
    have hnone : (Tree.list xs).mentions "-" = false := by
      rw [Tree.mentions, ← Bool.not_eq_true, List.contains_iff_mem]
      exact hsign xs rfl
    simp [sign, hnone]

/-- **Trees without operators are written level**, with the parentheses that are to be closed behind them. -/
theorem formulaFrom_plain {ts : List Tree} (h : ∀ t ∈ ts, t.AllWords Clear)
    (hsign : ∀ xs, .list xs ∈ ts → .word "-" ∉ xs) : ∀ (opened : Nat) (behind : Bool),
    ∃ text, formulaFrom false 0 opened behind ts = .ok text ∧ ∀ d, depthFrom (d + opened) text.toList = some d := by
  induction ts with
  | nil => exact fun opened _ => ⟨_, by rw [formulaFrom], fun d => depthFrom_closings opened d⟩
  | cons t ts ih =>
    intro opened behind
    obtain ⟨t', ht', hclear⟩ := exists_sign (h t List.mem_cons_self) fun xs hxs => hsign xs (hxs ▸ List.mem_cons_self)
    obtain ⟨rest, hrest, hdepth⟩ := ih (fun u hu => h u (List.mem_cons_of_mem t hu))
      (fun xs hxs => hsign xs (List.mem_cons_of_mem t hxs)) (if behind then opened + 1 else opened) false
    have hlevel : Level (t'.shown ++ if ts.isEmpty then "" else " ") := by
      refine ((clear_shown hclear).append ?_).level
      split <;> decide
    refine ⟨(if behind then "(" else "") ++ ((t'.shown ++ if ts.isEmpty then "" else " ") ++ rest), ?_, fun d => ?_⟩
    · rw [formulaFrom, ht']
      simp only [operator?_clear hclear, hrest, Except.map, String.append_assoc]
    · cases behind with
      | false =>
        rw [if_neg Bool.false_ne_true, String.empty_append, depthFrom_level hlevel]
        exact hdepth d
      | true =>
        rw [if_pos rfl, depthFrom_then (rfl : depthFrom (d + opened) "(".toList = some (d + opened + 1)),
          depthFrom_level hlevel]
        exact hdepth d

/-- **A formula in which every operator is written as one is level.** -/
theorem IsTold.formulaFrom_ok {ts : List Tree} (h : IsTold ts) : ∀ (opened : Nat) (behind : Bool),
    ∃ text, formulaFrom false 0 opened behind ts = .ok text ∧ ∀ d, depthFrom (d + opened) text.toList = some d := by
  induction h with
  | plain h hsign => exact formulaFrom_plain h hsign
  | @believed op w rest hop h ih =>
    intro opened behind
    obtain ⟨optext, hoptext, hclear⟩ := operator?_mark hop.signed
    obtain ⟨text, htext, hdepth⟩ := ih opened true
    refine ⟨optext ++ text, ?_, fun d => ?_⟩
    · have hword : behindOperator false (.word w :: rest) = .ok ("", 0) := by rw [behindOperator, Pdkb.enclosed]
      rw [formulaFrom, sign_word]
      simp only [hoptext, hword, htext, Except.map, String.append_empty]
    · rw [depthFrom_level hclear.level]
      exact hdepth d
  | @enclosed op inner hop hne h ih =>
    intro opened behind
    obtain ⟨optext, hoptext, hclear⟩ := operator?_mark hop.signed
    obtain ⟨text, htext, hdepth⟩ := ih 0 true
    obtain ⟨first, more, rfl⟩ := List.exists_cons_of_ne_nil hne
    refine ⟨optext ++ text ++ closings opened, ?_, fun d => ?_⟩
    · have hlist : behindOperator false [.list (first :: more)] = .ok (text, more.length + 1) := by
        rw [behindOperator, Pdkb.enclosed, htext]
        rfl
      rw [formulaFrom, sign_word]
      simp only [hoptext, hlist, formulaFrom, Except.map]
    · rw [depthFrom_level (hclear.level.append hdepth)]
      exact depthFrom_closings opened d

theorem IsTold.formula_ok {t : Tree} (h : IsTold t.items) : ∃ text, formula t = .ok text ∧ Level text :=
  h.formulaFrom_ok 0 false

/-! ## Guards -/

/-- Conditions of one sign that are none, or one formula. -/
def AtMostOne (cs : List Tree) : Prop :=
  AreNone cs ∨ ∃ xs, cs = [.list xs] ∧ xs ≠ [] ∧ .word "" ∉ xs ∧ IsTold xs

/-- Whether conditions are left when blanks are cleared. -/
def asks (cs : List Tree) : Bool := !(tidy cs).1.isEmpty

/-- What printing leaves of conditions: all, or nothing if there were none. -/
def Kept (cs left : List Tree) : Prop := left = cs ∨ AreNone cs ∧ left = []

theorem Kept.trans {cs left rest : List Tree} (h : Kept cs left) (h' : Kept left rest) : Kept cs rest := by
  rcases h with rfl | ⟨hnone, rfl⟩
  · exact h'
  · rcases h' with rfl | ⟨-, rfl⟩ <;> exact .inr ⟨hnone, rfl⟩

theorem Kept.asks_eq {cs left : List Tree} (h : Kept cs left) : asks left = asks cs := by
  rcases h with rfl | ⟨hnone, rfl⟩
  · rfl
  · simp [asks, tidy_of_areNone hnone, tidy_of_areNone (.inr rfl)]

theorem AtMostOne.kept {cs left : List Tree} (h : AtMostOne cs) (hkept : Kept cs left) : AtMostOne left := by
  rcases hkept with rfl | ⟨-, rfl⟩
  · exact h
  · exact .inl (.inr rfl)

theorem signText_level (positive : Bool) : Level (signText positive) := by
  cases positive <;> exact Clear.level (by decide)

/-- **A condition opens a list that it leaves open**, with the conjunction if it is the first. -/
theorem conditions_atMostOne {cs : List Tree} (h : AtMostOne cs) (positive first : Bool) :
    ∃ text left, conditions positive first cs = ⟨text, left, .ok (first && asks cs)⟩ ∧ Kept cs left ∧
      ∀ d, depthFrom d text.toList = some (if first && asks cs then d + 2 else d) := by
  rcases h with hnone | ⟨xs, rfl, hne, hblank, htold⟩
  · have hasks : asks cs = false := by simp [asks, tidy_of_areNone hnone]
    refine ⟨"", [], ?_, .inr ⟨hnone, rfl⟩, fun d => ?_⟩
    · simp [conditions, tidy_of_areNone hnone, hasks]
    · simp [hasks]
  · have htidy := tidy_single hne hblank
    have hasks : asks [.list xs] = true := by simp [asks, htidy]
    obtain ⟨text, htext, hlevel⟩ : ∃ text, formula (.list xs) = .ok text ∧ Level text := IsTold.formula_ok htold
    refine ⟨(if first then " (when (and (" else " (") ++ (signText positive ++ text ++ ")"), [.list xs], ?_, .inl rfl,
      fun d => ?_⟩
    · simp [conditions, htidy, hasks, listed, htext]
    · have hclose : ∀ e, depthFrom (e + 1) (signText positive ++ text ++ ")").toList = some e := by
        intro e
        rw [depthFrom_level ((signText_level positive).append hlevel)]
        rfl
      cases first with
      | true =>
        rw [if_pos rfl, depthFrom_then (rfl : depthFrom d " (when (and (".toList = some (d + 2 + 1)), hclose]
        simp [hasks]
      | false =>
        rw [if_neg Bool.false_ne_true, depthFrom_then (rfl : depthFrom d " (".toList = some (d + 1)), hclose]
        simp

/-- Whether a guard has conditions. -/
def conditional (g : Guard) : Bool := asks g.positive || asks g.negative

/-- A guard with at most one condition of each sign. -/
structure Simple (g : Guard) : Prop where
  positive : AtMostOne g.positive
  negative : AtMostOne g.negative

/-- A guard and what printing leaves of it. -/
structure KeptGuard (g left : Guard) : Prop where
  positive : Kept g.positive left.positive
  negative : Kept g.negative left.negative

theorem KeptGuard.refl (g : Guard) : KeptGuard g g := ⟨.inl rfl, .inl rfl⟩

theorem KeptGuard.trans {g h k : Guard} (hgh : KeptGuard g h) (hhk : KeptGuard h k) : KeptGuard g k :=
  ⟨hgh.positive.trans hhk.positive, hgh.negative.trans hhk.negative⟩

theorem KeptGuard.conditional_eq {g left : Guard} (h : KeptGuard g left) : conditional left = conditional g := by
  rw [conditional, conditional, h.positive.asks_eq, h.negative.asks_eq]

theorem Simple.kept {g left : Guard} (h : Simple g) (hkept : KeptGuard g left) : Simple left :=
  ⟨h.positive.kept hkept.positive, h.negative.kept hkept.negative⟩

/-- **A guard with conditions opens one list more than it closes**, and one without conditions writes nothing. -/
theorem guard_simple {g : Guard} (h : Simple g) : ∃ text left, guard g = ⟨text, left, .ok (conditional g)⟩ ∧
    KeptGuard g left ∧ ∀ d, depthFrom d text.toList = some (if conditional g then d + 1 else d) := by
  obtain ⟨pos, posLeft, hpos, hposKept, hposDepth⟩ := conditions_atMostOne h.positive true true
  obtain ⟨neg, negLeft, hneg, hnegKept, hnegDepth⟩ := conditions_atMostOne h.negative false (!asks g.positive)
  have hboth : printBoth conditions g = ⟨pos ++ neg, ⟨posLeft, negLeft⟩, .ok (conditional g)⟩ := by
    simp only [printBoth, hpos, Bool.true_and, hneg, Except.map, conditional]
    cases asks g.positive <;> rfl
  have hdepth : ∀ d, depthFrom d (pos ++ neg).toList = some (if conditional g then d + 2 else d) := by
    intro d
    rw [depthFrom_then (hposDepth d), hnegDepth, conditional]
    cases asks g.positive <;> cases asks g.negative <;> rfl
  by_cases hc : conditional g = true
  · refine ⟨pos ++ neg ++ ")", ⟨posLeft, negLeft⟩, by simp [guard, hboth, hc], ⟨hposKept, hnegKept⟩, fun d => ?_⟩
    rw [depthFrom_then (hdepth d), if_pos hc, if_pos hc]
    rfl
  · refine ⟨pos ++ neg, ⟨posLeft, negLeft⟩, by simp [guard, hboth, hc], ⟨hposKept, hnegKept⟩, fun d => ?_⟩
    rw [hdepth d, if_neg hc, if_neg hc]

/-! ## Steps -/

/-- A table of guards and what printing leaves of it. -/
def KeptAll (guards left : List Guard) : Prop := ∀ i, KeptGuard (guardAt guards i) (guardAt left i)

theorem KeptAll.set {guards left : List Guard} (h : KeptAll guards left) {i : Nat} {g : Guard}
    (hg : KeptGuard (guardAt left i) g) : KeptAll guards (left.set i g) := by
  intro j
  rw [guardAt_set]
  split
  · rename_i hij
    exact (h j).trans (hij.1 ▸ hg)
  · exact h j

/-- Steps that write a text, return a result that the guards decide, and keep the guards.  Where they begin with so many
lists open, `f` says how many are open behind them. -/
def Moves {α : Type} (guards : List Guard) (w : Work Sheet α) (a : α) (f : Nat → Option Nat) : Prop :=
  ∀ sheet : Sheet, KeptAll guards sheet.guards → ∃ text done, w.perform sheet = (.ok a, done) ∧
    done.text = sheet.text ++ text ∧ KeptAll guards done.guards ∧ ∀ d, depthFrom d text.toList = f d

section Moves

variable {α β : Type} {guards : List Guard}

theorem Moves.congr {w : Work Sheet α} {a : α} {f g : Nat → Option Nat} (h : Moves guards w a f)
    (hfg : ∀ d, f d = g d) : Moves guards w a g :=
  funext hfg ▸ h

theorem moves_pure (a : α) : Moves guards (pure a) a some :=
  fun sheet hsheet => ⟨"", sheet, rfl, by simp, hsheet, fun _ => rfl⟩

theorem moves_write (s : String) : Moves guards (Sheet.write s) () (depthFrom · s.toList) :=
  fun sheet hsheet => ⟨s, _, Sheet.perform_write s sheet, rfl, hsheet, fun _ => rfl⟩

theorem Level.moves {s : String} (h : Level s) : Moves guards (Sheet.write s) () some := (moves_write s).congr h

theorem Moves.bind {w : Work Sheet α} {next : α → Work Sheet β} {a : α} {b : β} {f g : Nat → Option Nat}
    (hw : Moves guards w a f) (hnext : Moves guards (next a) b g) :
    Moves guards (w >>= next) b (fun d => (f d).bind g) := by
  intro sheet hsheet
  obtain ⟨text, mid, hfirst, hmid, hkept, hf⟩ := hw sheet hsheet
  obtain ⟨more, done, hrest, hdone, hkept', hg⟩ := hnext mid hkept
  refine ⟨text ++ more, done, ?_, ?_, hkept', fun d => ?_⟩
  · rw [Work.perform_bind_ok hfirst, hrest]
  · rw [hdone, hmid, String.append_assoc]
  · rw [String.toList_append, depthFrom_append, hf d, funext hg]

/-- Steps behind others that leave as many lists open as they found. -/
theorem Moves.andThen {w : Work Sheet α} {next : α → Work Sheet β} {a : α} {b : β} {g : Nat → Option Nat}
    (hw : Moves guards w a some) (hnext : Moves guards (next a) b g) : Moves guards (w >>= next) b g :=
  (hw.bind hnext).congr fun _ => rfl

theorem moves_ofExcept {r : Except Fault α} {a : α} (h : r = .ok a) : Moves guards (Work.ofExcept r) a some :=
  h ▸ moves_pure a

theorem Moves.behindWrite {next : Work Sheet α} {a : α} {g : Nat → Option Nat} (h : Moves guards next a g)
    (s : String) : Moves guards (Sheet.write s >>= fun _ => next) a (fun d => (depthFrom d s.toList).bind g) :=
  (moves_write s).bind h

/-- Steps that are left out before others. -/
theorem moves_unless {p : Bool} (hp : p = false) {w : Work Sheet Unit} {next : Work Sheet α} {a : α}
    {g : Nat → Option Nat} (hnext : Moves guards next a g) :
    Moves guards (if p then w >>= fun _ => next else next) a g := by
  rw [hp]
  exact hnext

/-- Steps that are taken or not before others. -/
theorem moves_when {p : Bool} {w : Work Sheet Unit} {next : Work Sheet α} {a : α} {g : Nat → Option Nat}
    (hw : Moves guards w () some) (hnext : Moves guards next a g) :
    Moves guards (if p then w >>= fun _ => next else next) a g := by
  cases p
  · exact hnext
  · exact hw.andThen hnext

/-- **Steps for each of a list leave as many lists open as they found, if each of them does.** -/
theorem moves_foldlM {f : α → β → Work Sheet α} {P : α → Prop} {bs : List β}
    (h : ∀ b ∈ bs, ∀ a, P a → ∃ a', Moves guards (f a b) a' some ∧ P a') :
    ∀ {a : α}, P a → ∃ a', Moves guards (bs.foldlM f a) a' some ∧ P a' := by
  induction bs with
  | nil =>
    intro a ha
    exact ⟨a, moves_pure a, ha⟩
  | cons b bs ih =>
    intro a ha
    obtain ⟨a', hfirst, ha'⟩ := h b List.mem_cons_self a ha
    obtain ⟨a'', hrest, ha''⟩ := ih (fun c hc => h c (List.mem_cons_of_mem b hc)) ha'
    exact ⟨a'', by rw [List.foldlM_cons]; exact hfirst.andThen hrest, ha''⟩

theorem moves_printGuard {i : Nat} (h : Simple (guardAt guards i)) :
    Moves guards (Sheet.printGuard guard i) (conditional (guardAt guards i))
      (fun d => some (if conditional (guardAt guards i) then d + 1 else d)) := by
  intro sheet hsheet
  obtain ⟨text, left, hprinted, hkept, hdepth⟩ := guard_simple (h.kept (hsheet i))
  rw [(hsheet i).conditional_eq] at hprinted hdepth
  refine ⟨text, { sheet with text := sheet.text ++ text, guards := sheet.guards.set i left }, ?_, rfl,
    hsheet.set hkept, hdepth⟩
  rw [Sheet.perform_printGuard, hprinted]

end Moves

/-! ## Beliefs -/

theorem newLine_level : Level newLine := Clear.level (by decide)

/-- A text that opens a list. -/
def Opens (s : String) : Prop := ∀ d, depthFrom d s.toList = some (d + 1)

theorem Opens.enclosing {lead s : String} (hlead : Opens lead) (hs : Level s) : Level (lead ++ s ++ ")") := by
  intro d
  rw [String.append_assoc, depthFrom_then (hlead d), depthFrom_level hs]
  rfl

/-- An observer clause that names agents and has no condition. -/
structure NamesAgents (guards : List Guard) (e : Entry) : Prop where
  positive : AreNone (guardAt guards e.guard).positive
  negative : AreNone (guardAt guards e.guard).negative
  names : ∀ t ∈ e.body.items, ∃ w, t = .word w ∧ isMarked (.word w) = false ∧ Clear w

theorem NamesAgents.moves {guards : List Guard} {e : Entry} (h : NamesAgents guards e) :
    Moves guards (Sheet.printGuard guard e.guard) false some := by
  have hnone : conditional (guardAt guards e.guard) = false := by
    simp [conditional, asks, tidy_of_areNone h.positive, tidy_of_areNone h.negative]
  have hprinted := moves_printGuard ⟨.inl h.positive, .inl h.negative⟩
  simpa [hnone] using hprinted

/-- The marks between effects: whether one had a condition, and no observer had. -/
structure Calm (guarded : Bool) (m : Marks) : Prop where
  guarded : m.guarded = guarded
  observer : m.observerGuarded = false
  inPart : m.inPartGuarded = false

section Beliefs

variable {guards : List Guard} {guarded : Bool} {fluent ag : String} (hfluent : Level fluent) (hag : Clear ag)
include hfluent hag

theorem moves_beliefInPart {e : Entry} (he : NamesAgents guards e) {t : Tree} (ht : t ∈ e.body.items) {m : Marks}
    (hm : Calm guarded m) : ∃ m', Moves guards (beliefInPart fluent ag e m t) m' some ∧ Calm guarded m' := by
  obtain ⟨other, rfl, hmarked, hother⟩ := he.names t ht
  refine ⟨{ m with count := if m.count == 3 then 1 else m.count + 1, inPartGuarded := false }, ?_,
    ⟨hm.guarded, hm.observer, rfl⟩⟩
  have hopens : Opens (" [" ++ other ++ "][" ++ ag ++ "](or") := by
    intro d
    have hlevel : Level (" [" ++ other ++ "][" ++ ag) :=
      (((Clear.append (by decide) hother).append (by decide)).append hag).level
    rw [depthFrom_level hlevel]
    rfl
  have hcloses : ∀ d, depthFrom (d + 1) (" (!" ++ fluent ++ "))").toList = some d := by
    intro d
    rw [String.append_assoc, depthFrom_then (rfl : depthFrom (d + 1) " (!".toList = some (d + 2)),
      depthFrom_level hfluent]
    rfl
  have hplain : Level (" (" ++ fluent ++ ")") := Opens.enclosing (fun _ => rfl) hfluent
  rw [beliefInPart, if_neg (by simp [hmarked])]
  refine he.moves.andThen (moves_when newLine_level.moves ((moves_pure other).andThen ?_))
  refine ((hplain.moves.andThen ((moves_pure _).behindWrite _)).behindWrite _).congr fun d => ?_
  rw [hopens, Option.bind_some, hcloses, Option.bind_some]

theorem moves_beliefsInPart {es : List Entry} (hes : ∀ e ∈ es, NamesAgents guards e) : ∀ {m : Marks}, Calm guarded m →
    ∃ m', Moves guards (beliefsInPart fluent ag es m) m' some ∧ Calm guarded m' := by
  induction es with
  | nil =>
    intro m hm
    exact ⟨m, moves_pure m, hm⟩
  | cons e es ih =>
    intro m hm
    obtain ⟨m₁, hfirst, hm₁⟩ := moves_foldlM
      (fun t ht _ hm => moves_beliefInPart hfluent hag (hes e List.mem_cons_self) ht hm) hm
    obtain ⟨m₂, hrest, hm₂⟩ := ih (fun e' he' => hes e' (List.mem_cons_of_mem e he')) hm₁
    exact ⟨m₂, hfirst.andThen hrest, hm₂⟩

omit hag in
theorem moves_belief {inPart : List Entry} (hinPart : ∀ e ∈ inPart, NamesAgents guards e) (positive : Bool) {e : Entry}
    (he : NamesAgents guards e) {t : Tree} (ht : t ∈ e.body.items) {m : Marks} (hm : Calm guarded m) :
    ∃ m', Moves guards (belief positive fluent inPart e m t) m' some ∧ Calm guarded m' := by
  obtain ⟨ag, rfl, hmarked, hag⟩ := he.names t ht
  obtain ⟨m₁, hbeliefs, hm₁⟩ := moves_beliefsInPart hfluent hag hinPart
    (⟨hm.guarded, rfl, hm.inPart⟩ : Calm guarded { m with
      count := if m.count == 3 then 1 else m.count
      observerGuarded := false })
  refine ⟨{ m₁ with inPartGuarded := false }, ?_, ⟨hm₁.guarded, hm₁.observer, rfl⟩⟩
  have hopens : Opens (" [" ++ ag ++ "](") := by
    intro d
    rw [depthFrom_level (Clear.append (by decide) hag).level]
    rfl
  have hcloses : ∀ d, depthFrom (d + 1) (signText positive ++ fluent ++ ")").toList = some d := by
    intro d
    rw [depthFrom_level ((signText_level positive).append hfluent)]
    rfl
  rw [belief, if_neg (by simp [hmarked])]
  refine he.moves.andThen (moves_when newLine_level.moves ((moves_pure ag).andThen ?_))
  refine (((hbeliefs.andThen (moves_unless hm₁.inPart (moves_pure _))).behindWrite _).behindWrite _).congr fun d => ?_
  rw [hopens, Option.bind_some, hcloses, Option.bind_some]

omit hag in
theorem moves_beliefs {inPart : List Entry} (hinPart : ∀ e ∈ inPart, NamesAgents guards e) (positive : Bool)
    {es : List Entry} (hes : ∀ e ∈ es, NamesAgents guards e) : ∀ {m : Marks}, Calm guarded m →
    ∃ m', Moves guards (beliefs positive fluent inPart es m) m' some ∧ Calm guarded m' := by
  induction es with
  | nil =>
    intro m hm
    exact ⟨m, moves_pure m, hm⟩
  | cons e es ih =>
    intro m hm
    obtain ⟨m₁, hfirst, hm₁⟩ := moves_foldlM
      (fun t ht _ hm => moves_belief hfluent hinPart positive (hes e List.mem_cons_self) ht hm) hm
    obtain ⟨m₂, hrest, hm₂⟩ := ih (fun e' he' => hes e' (List.mem_cons_of_mem e he')) hm₁
    exact ⟨m₂, hfirst.andThen hrest, hm₂⟩

end Beliefs

/-! ## Effects -/

/-- Closes so many lists, if they are open. -/
def closeBy (n d : Nat) : Option Nat := if n ≤ d then some (d - n) else none

theorem closeBy_bind (m n d : Nat) : (closeBy m d).bind (closeBy n) = closeBy (m + n) d := by
  unfold closeBy
  by_cases hm : m ≤ d
  · rw [if_pos hm, Option.bind_some]
    by_cases hn : n ≤ d - m
    · rw [if_pos hn, if_pos (by omega)]
      congr 1
      omega
    · rw [if_neg hn, if_neg (by omega)]
  · rw [if_neg hm, if_neg (by omega)]
    rfl

theorem depthFrom_close (d : Nat) : depthFrom d ")".toList = closeBy 1 d := by
  cases d with
  | zero => rfl
  | succ d => rfl

theorem moves_closing {α : Type} {guards : List Guard} (p : Bool) (a : α) :
    Moves guards (if p then Sheet.write ")" >>= fun _ => pure a else pure a) a (closeBy (if p then 1 else 0)) := by
  cases p with
  | true =>
    refine ((moves_pure a).behindWrite ")").congr fun d => ?_
    rw [depthFrom_close, Option.bind_fun_some, if_pos rfl]
  | false => exact (moves_pure a).congr fun d => by simp [closeBy]

/-- An action whose formulas have no parentheses but those of operators, whose effects have at most one condition of
each sign, and whose observers are named without conditions. -/
structure PlainlyObserved (a : Action) (full inPart : List Entry) : Prop where
  observers : a.observers = .levels full inPart
  effects : ∀ e ∈ a.addEffects ++ a.deleteEffects, IsTold e.body.items ∧ Simple (guardAt a.guards e.guard)
  names : ∀ e ∈ full ++ inPart, NamesAgents a.guards e

/-- Whether an action changes the world. -/
def isOntic (a : Action) : Bool := a.kind != .sensing && a.kind != .announcement

section Effects

variable {a : Action} {full inPart : List Entry} (h : PlainlyObserved a full inPart)
include h

theorem moves_observerEffects (hobserved : isOntic a = true ∨ full ≠ []) (positive : Bool) {fluent : String}
    (hfluent : Level fluent) {guarded : Bool} {m : Marks} (hm : Calm guarded m) :
    ∃ m', Moves a.guards (observerEffects positive (isOntic a) fluent a.observers m) m' some ∧ Calm guarded m' := by
  rw [h.observers]
  cases hfull : full with
  | nil =>
    have hontic : isOntic a = true := hobserved.resolve_right fun hne => hne hfull
    refine ⟨m, ?_, hm⟩
    rw [observerEffects, if_pos hontic]
    exact moves_pure m
  | cons e es =>
    obtain ⟨m₁, hbeliefs, hm₁⟩ := moves_beliefs hfluent (fun e he => h.names e (List.mem_append_right full he)) positive
      (fun e' he' => h.names e' (List.mem_append_left inPart (hfull ▸ he'))) hm
    refine ⟨{ m₁ with observerGuarded := false }, ?_, ⟨hm₁.guarded, rfl, hm₁.inPart⟩⟩
    rw [observerEffects]
    · exact hbeliefs.andThen (moves_unless hm₁.observer (moves_pure _))
    · simp

/-- **What is open behind an effect.**  An effect leaves as many lists open as it found, but one without a condition
behind one that had any closes one more. -/
theorem moves_effect (hobserved : isOntic a = true ∨ full ≠ []) (positive : Bool) {e : Entry}
    (he : e ∈ a.addEffects ++ a.deleteEffects) {guarded : Bool} {m : Marks} (hm : Calm guarded m) :
    ∃ m', Moves a.guards (effect positive a m e) m'
        (closeBy (if guarded && !conditional (guardAt a.guards e.guard) then 1 else 0)) ∧
      Calm (guarded || conditional (guardAt a.guards e.guard)) m' := by
  obtain ⟨htold, hsimple⟩ := h.effects e he
  obtain ⟨fluent, hfluent, hlevel⟩ := htold.formula_ok
  have hliteral : Level (" (" ++ signText positive ++ fluent ++ ")") := by
    refine Opens.enclosing (fun d => ?_) hlevel
    rw [depthFrom_then (rfl : depthFrom d " (".toList = some (d + 1)), signText_level positive]
  let count := if m.count == 3 then 0 else m.count
  obtain ⟨m₁, hobservers, hm₁⟩ := moves_observerEffects h hobserved positive hlevel
    (⟨by rw [hm.guarded], hm.observer, hm.inPart⟩ : Calm (guarded || conditional (guardAt a.guards e.guard)) { m with
      count := if isOntic a then count + 1 else count
      guarded := m.guarded || conditional (guardAt a.guards e.guard) })
  refine ⟨m₁, ?_, hm₁⟩
  refine (moves_when newLine_level.moves ((moves_ofExcept hfluent).andThen ((moves_printGuard hsimple).bind
    (moves_when hliteral.moves (hobservers.andThen (moves_closing m₁.guarded m₁)))))).congr fun d => ?_
  rw [hm₁.guarded]
  cases guarded <;> cases conditional (guardAt a.guards e.guard) <;> simp [closeBy]

/-- How many effects of a list have no condition though one before them had; `guarded` says whether one had before. -/
def strays (guards : List Guard) : (guarded : Bool) → List Entry → Nat
  | _, [] => 0
  | guarded, e :: es =>
    (if guarded && !conditional (guardAt guards e.guard) then 1 else 0) +
      strays guards (guarded || conditional (guardAt guards e.guard)) es

theorem moves_effects (positive : Bool) {es : List Entry} (hobserved : es ≠ [] → isOntic a = true ∨ full ≠ [])
    (hes : ∀ e ∈ es, e ∈ a.addEffects ++ a.deleteEffects) : ∀ {guarded : Bool} {m : Marks}, Calm guarded m →
    ∃ m', Moves a.guards (es.foldlM (effect positive a) m) m' (closeBy (strays a.guards guarded es)) := by
  induction es with
  | nil =>
    intro guarded m _
    exact ⟨m, (moves_pure m).congr fun d => by simp [closeBy, strays]⟩
  | cons e es ih =>
    intro guarded m hm
    have hsome := hobserved (List.cons_ne_nil e es)
    obtain ⟨m₁, hfirst, hm₁⟩ := moves_effect h hsome positive (hes e List.mem_cons_self) hm
    obtain ⟨m₂, hrest⟩ := ih (fun _ => hsome) (fun e' he' => hes e' (List.mem_cons_of_mem e he')) hm₁
    refine ⟨m₂, ?_⟩
    rw [List.foldlM_cons]
    exact (hfirst.bind hrest).congr fun d => closeBy_bind _ _ d

/-- **The effects of an action close as many lists too many as there are strays.** -/
theorem moves_allEffects (hobserved : a.addEffects ++ a.deleteEffects ≠ [] → isOntic a = true ∨ full ≠ []) :
    Moves a.guards (Pdkb.effects a) () (fun d =>
      closeBy (strays a.guards false a.addEffects + strays a.guards false a.deleteEffects + 1) (d + 1)) := by
  have hcalm : Calm false ({} : Marks) := ⟨rfl, rfl, rfl⟩
  obtain ⟨m, hadds⟩ := moves_effects h true (fun hne => hobserved (List.append_ne_nil_of_left_ne_nil hne _))
    (fun e he => List.mem_append_left a.deleteEffects he) hcalm
  obtain ⟨m', hdeletes⟩ := moves_effects h false (fun hne => hobserved (List.append_ne_nil_of_right_ne_nil _ hne))
    (fun e he => List.mem_append_right a.addEffects he) hcalm
  refine (hadds.bind (hdeletes.bind (moves_write ")\n")) |>.behindWrite (effectLabel ++ "and")).congr fun d => ?_
  have hlabel : depthFrom d (effectLabel ++ "and").toList = some (d + 1) := rfl
  have hend : (depthFrom · ")\n".toList) = closeBy 1 := funext fun d => by cases d <;> rfl
  rw [hlabel, Option.bind_some, hend, ← closeBy_bind, ← closeBy_bind, Option.bind_assoc]

end Effects

/-! ## Actions that nobody observes -/

/-- Steps that stop. -/
def Stops {α : Type} (guards : List Guard) (w : Work Sheet α) : Prop :=
  ∀ sheet : Sheet, KeptAll guards sheet.guards → ∃ e done, w.perform sheet = (.error e, done)

theorem Stops.bind {α β : Type} {guards : List Guard} {w : Work Sheet α} (h : Stops guards w)
    (next : α → Work Sheet β) : Stops guards (w >>= next) := by
  intro sheet hsheet
  obtain ⟨e, done, hw⟩ := h sheet hsheet
  exact ⟨e, done, Work.perform_bind_error hw⟩

theorem Moves.stops {α β : Type} {guards : List Guard} {w : Work Sheet α} {next : α → Work Sheet β} {a : α}
    {f : Nat → Option Nat} (hw : Moves guards w a f) (hnext : Stops guards (next a)) : Stops guards (w >>= next) := by
  intro sheet hsheet
  obtain ⟨text, mid, hfirst, -, hkept, -⟩ := hw sheet hsheet
  obtain ⟨e, done, hrest⟩ := hnext mid hkept
  exact ⟨e, done, by rw [Work.perform_bind_ok hfirst, hrest]⟩

theorem stops_when {α : Type} {guards : List Guard} {p : Bool} {w : Work Sheet Unit} {next : Work Sheet α}
    {f : Nat → Option Nat} (hw : Moves guards w () f) (hnext : Stops guards next) :
    Stops guards (if p then w >>= fun _ => next else next) := by
  cases p
  · exact hnext
  · exact hw.stops hnext

theorem stops_effect {a : Action} {inPart : List Entry} (h : PlainlyObserved a [] inPart) (hontic : isOntic a = false)
    (positive : Bool) {e : Entry} (he : e ∈ a.addEffects ++ a.deleteEffects) (m : Marks) :
    Stops a.guards (effect positive a m e) := by
  obtain ⟨htold, hsimple⟩ := h.effects e he
  obtain ⟨fluent, hfluent, -⟩ := htold.formula_ok
  have hstop : ∀ m : Marks, Stops a.guards (observerEffects positive (isOntic a) fluent a.observers m) := by
    intro m sheet _
    rw [h.observers, observerEffects, hontic]
    exact ⟨_, _, rfl⟩
  exact stops_when newLine_level.moves ((moves_ofExcept hfluent).stops ((moves_printGuard hsimple).stops
    (stops_when (moves_write _) ((hstop _).bind _))))

theorem stops_effects {a : Action} {inPart : List Entry} (h : PlainlyObserved a [] inPart) (hontic : isOntic a = false)
    (hsome : a.addEffects ++ a.deleteEffects ≠ []) : Stops a.guards (effects a) := by
  refine (moves_write _).stops ?_
  cases hadds : a.addEffects with
  | cons e es =>
    rw [List.foldlM_cons]
    exact ((stops_effect h hontic true (by simp [hadds]) _).bind _).bind _
  | nil =>
    refine (moves_pure _).stops ?_
    cases hdeletes : a.deleteEffects with
    | cons e es =>
      rw [List.foldlM_cons]
      exact ((stops_effect h hontic false (by simp [hdeletes]) _).bind _).bind _
    | nil => simp [hadds, hdeletes] at hsome

/-! ## Balance -/

/-- No effect without a condition stands behind one with a condition. -/
def ConditionalLast (guards : List Guard) (es : List Entry) : Prop :=
  es.Pairwise fun e e' =>
    conditional (guardAt guards e.guard) = true → conditional (guardAt guards e'.guard) = true

theorem conditionalLast_cons {guards : List Guard} {e : Entry} {es : List Entry} : ConditionalLast guards (e :: es) ↔
    (conditional (guardAt guards e.guard) = true → ∀ e' ∈ es, conditional (guardAt guards e'.guard) = true) ∧
      ConditionalLast guards es := by
  rw [ConditionalLast, List.pairwise_cons]
  exact and_congr_left fun _ => ⟨fun h hc e' he' => h e' he' hc, fun h e' he' hc => h hc e' he'⟩

theorem strays_eq_zero_iff {guards : List Guard} {es : List Entry} : ∀ {guarded : Bool}, strays guards guarded es = 0 ↔
    (guarded = true → ∀ e ∈ es, conditional (guardAt guards e.guard) = true) ∧ ConditionalLast guards es := by
  induction es with
  | nil => simp [strays, ConditionalLast]
  | cons e es ih =>
    intro guarded
    rw [strays, Nat.add_eq_zero_iff, ih, conditionalLast_cons]
    cases guarded <;> cases hc : conditional (guardAt guards e.guard) <;> simp [hc]

/-- **The effects of an action are balanced exactly if those without a condition come first**, among those that come
about and among those that go.  They can be written unless nobody observes an action that does not change the world. -/
theorem effects_balanced_iff {a : Action} {full inPart : List Entry} (h : PlainlyObserved a full inPart) :
    ∃ outcome done, (effects a).perform { guards := a.guards } = (outcome, done) ∧
      (outcome = .ok () ↔ (a.addEffects ++ a.deleteEffects ≠ [] → isOntic a = true ∨ full ≠ [])) ∧
      (outcome = .ok () → (Source.Balanced done.text.toList ↔
        ConditionalLast a.guards a.addEffects ∧ ConditionalLast a.guards a.deleteEffects)) := by
  have hkept : KeptAll a.guards a.guards := fun i => .refl _
  by_cases hobserved : a.addEffects ++ a.deleteEffects ≠ [] → isOntic a = true ∨ full ≠ []
  · obtain ⟨text, done, hrun, hdone, -, hdepth⟩ := moves_allEffects h hobserved { guards := a.guards } hkept
    refine ⟨.ok (), done, hrun, iff_of_true rfl hobserved, fun _ => ?_⟩
    have htext : done.text.toList = text.toList := by rw [hdone, String.empty_append]
    rw [Source.balanced_iff, htext, hdepth]
    have hzero : ∀ {es : List Entry}, strays a.guards false es = 0 ↔ ConditionalLast a.guards es := by
      simp [strays_eq_zero_iff]
    rw [← hzero, ← hzero, ← Nat.add_eq_zero_iff]
    simp [closeBy]
  · simp only [Classical.not_imp, not_or, Bool.not_eq_true, not_not] at hobserved
    obtain ⟨hsome, hontic, rfl⟩ := hobserved
    obtain ⟨e, done, hrun⟩ := stops_effects h hontic hsome { guards := a.guards } hkept
    refine ⟨.error e, done, hrun, ?_, fun hok => by cases hok⟩
    simp [hsome, hontic]

/-- A lamp that goes on if an agent believes that it is dark, and gets warm in any case. -/
def switch : Action where
  name := "switch"
  guards := [⟨[.list [.word "B(a,", .word "dark"]], blankConditions⟩, .blank, .blank]
  addEffects := [⟨.list [.word "on"], 0, blankConditions⟩, ⟨.list [.word "warm"], 1, blankConditions⟩]
  observers := .levels [⟨.list [.word "a"], 2, blankConditions⟩] []

theorem effects_balanced_iff_switch :
    PlainlyObserved switch [⟨.list [.word "a"], 2, blankConditions⟩] [] ∧
    ∃ outcome done, (effects switch).perform { guards := switch.guards } = (outcome, done) ∧
      (outcome = .ok () ↔ (switch.addEffects ++ switch.deleteEffects ≠ [] → isOntic switch = true ∨
        [(⟨.list [.word "a"], 2, blankConditions⟩ : Entry)] ≠ [])) ∧
      (outcome = .ok () → (Source.Balanced done.text.toList ↔
        ConditionalLast switch.guards switch.addEffects ∧ ConditionalLast switch.guards switch.deleteEffects)) := by
  have hword : ∀ w : String, Clear w → IsTold [.word w] := by
    intro w hw
    exact .plain (List.forall_mem_singleton.2 hw) (by simp)
  have hbelief : IsTold [.word "B(a,", .word "dark"] :=
    .believed ⟨'B', ['a', ','], rfl, .inl rfl, by simp [isParenthesis]⟩ (hword "dark" (by decide))
  have hblank : AtMostOne blankConditions := .inl (.inl rfl)
  have hswitch : PlainlyObserved switch [⟨.list [.word "a"], 2, blankConditions⟩] [] := by
    refine ⟨rfl, ?_, ?_⟩
    · intro e he
      rcases List.mem_pair.1 he with rfl | rfl
      · exact ⟨hword "on" (by decide), .inr ⟨_, rfl, by simp, by simp, hbelief⟩, hblank⟩
      · exact ⟨hword "warm" (by decide), hblank, hblank⟩
    · intro e he
      rw [List.mem_singleton.1 he]
      exact ⟨.inl rfl, .inl rfl, List.forall_mem_singleton.2 ⟨"a", rfl, by decide, by decide⟩⟩
  exact ⟨hswitch, effects_balanced_iff hswitch⟩

end Pdkb
end Epistemic
