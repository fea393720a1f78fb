import Epistemic.Proofs.Rules
import Epistemic.Source.Scan
/-!
# The rewriting loops end

Before a text is cut into tokens, two rules that take parentheses away are repeated in passes until one finds nothing.
A pass replaces something exactly if the pattern of its rule has a match in the text, and each replacement takes as many
opening parentheses away as closing ones.  So both loops end, after at most one pass more than the text has opening
parentheses, on a text in which the pattern has no match (`rewriting_loops_end`).
-/
namespace Epistemic.Source

open Text (isBlank splitLast?)

/-! ## Patterns -/

/-- The pattern of `doubleParentheses`: two pairs of parentheses around a text without any, with nothing but blanks
between them. -/
def IsDoubled (m : List Char) : Prop :=
  ∃ b₁ inner b₂, (∀ c ∈ b₁, isBlank c = true) ∧ (∀ c ∈ inner, isParenthesis c = false) ∧ inner ≠ [] ∧
    (∀ c ∈ b₂, isBlank c = true) ∧ m = '(' :: (b₁ ++ '(' :: (inner ++ ')' :: (b₂ ++ [')'])))

/-- The pattern of `operatorParentheses`: brackets around a text without an opening one, and right behind them
parentheses around a text without an opening one. -/
def IsGlued (m : List Char) : Prop :=
  ∃ agents inner, agents ≠ [] ∧ '[' ∉ agents ∧ inner ≠ [] ∧ '(' ∉ inner ∧
    m = '[' :: (agents ++ ']' :: '(' :: (inner ++ [')']))

/-- A rule that matches exactly the texts that begin with a match of a pattern, which is never empty. -/
structure Rule.Finds (rule : Rule) (pattern : List Char → Prop) : Prop where
  ne_nil : ∀ {m}, pattern m → m ≠ []
  eq_none_iff : ∀ cs, rule cs = none ↔ ∀ m, pattern m → ¬ m <+: cs

theorem doubleParentheses_finds : Rule.Finds doubleParentheses IsDoubled where
  ne_nil := by
    rintro m ⟨b₁, inner, b₂, -, -, -, -, rfl⟩
    exact List.cons_ne_nil _ _
  eq_none_iff cs := by
    constructor
    · rintro hnone m ⟨b₁, inner, b₂, hb₁, hinner, hne, hb₂, rfl⟩ ⟨rest, rfl⟩
      have hsome := doubleParentheses_append hb₁ hb₂ hinner hne rest
      simp only [List.cons_append, List.append_assoc, List.nil_append] at hnone
      rw [hnone] at hsome
      cases hsome
    · intro hpattern
      refine Option.eq_none_iff_forall_ne_some.2 ?_
      rintro ⟨new, rest⟩ hsome
      obtain ⟨b₁, b₂, hb₁, hb₂, hnew, hne, rfl⟩ := doubleParentheses_some hsome
      refine hpattern _ ⟨b₁, new, b₂, hb₁, hnew, hne, hb₂, rfl⟩ ⟨rest, ?_⟩
      simp only [List.cons_append, List.append_assoc, List.nil_append]

theorem closed?_ne_none {inner : List Char} (hne : inner ≠ []) (hopen : '(' ∉ inner) (rest : List Char) :
    closed? (inner ++ ')' :: rest) ≠ none := by
  unfold closed?
  rw [takeWhile_append_cons hopen (by decide)]
  cases hs : splitLast? [')'] (inner ++ ')' :: rest.takeWhile (· != '(')) with
  | none => exact absurd (by simp) (splitLast?_none hs)
  | some m =>
    obtain ⟨before, after⟩ := m
    obtain ⟨hsplit, hafter⟩ := splitLast?_some hs
    cases before with
    | cons c before => simp [hs]
    | nil =>
      -- a closing parenthesis in front would be the last one, but one stands behind `inner`
      obtain ⟨c, inner, rfl⟩ := List.exists_cons_of_ne_nil hne
      rw [List.cons_append, List.nil_append, List.cons.injEq] at hsplit
      exact absurd (by rw [← hsplit.2]; simp) hafter

theorem lastOperator?_ne_none {tail : List Char} (hclosed : closed? tail ≠ none) :
    ∀ {before : List Char}, '[' ∉ before →
      ∃ b inner rest, lastOperator? (before ++ ']' :: '(' :: tail) = some (b, inner, rest) ∧ before.length ≤ b.length
  | [], _ => by
    obtain ⟨⟨inner, rest⟩, hm⟩ := Option.ne_none_iff_exists'.1 hclosed
    rw [List.nil_append, lastOperator?, if_neg (by decide)]
    cases lastOperator? ('(' :: tail) with
    | some m => exact ⟨_, _, _, rfl, Nat.zero_le _⟩
    | none => exact ⟨[], inner, rest, by simp [hm], Nat.zero_le _⟩
  | c :: before, h => by
    rw [List.mem_cons, not_or] at h
    obtain ⟨b, inner, rest, hm, hle⟩ := lastOperator?_ne_none hclosed h.2
    unfold lastOperator?
    rw [List.cons_append]
    simp only
    rw [hm, if_neg (by rw [beq_iff_eq]; exact Ne.symm h.1)]
    exact ⟨c :: b, inner, rest, rfl, Nat.succ_le_succ hle⟩

theorem operatorParentheses_finds : Rule.Finds operatorParentheses IsGlued where
  ne_nil := by
    rintro m ⟨agents, inner, -, -, -, -, rfl⟩
    exact List.cons_ne_nil _ _
  eq_none_iff cs := by
    constructor
    · rintro hnone m ⟨agents, inner, hagents, hbracket, hne, hopen, rfl⟩ ⟨rest, rfl⟩
      obtain ⟨b, i, r, hlast, hle⟩ := lastOperator?_ne_none (closed?_ne_none hne hopen rest) hbracket
      cases b with
      | nil => exact hagents (List.length_eq_zero_iff.1 (Nat.le_zero.1 hle))
      | cons c b =>
        simp only [List.cons_append, List.append_assoc, List.nil_append, operatorParentheses, hlast] at hnone
        cases hnone
    · intro hpattern
      refine Option.eq_none_iff_forall_ne_some.2 ?_
      rintro ⟨new, rest⟩ hsome
      obtain ⟨agents, inner, hagents, hbracket, hne, hopen, -, rfl, -⟩ := operatorParentheses_some hsome
      refine hpattern _ ⟨agents, inner, hagents, hbracket, hne, hopen, rfl⟩ ⟨rest, ?_⟩
      simp only [List.cons_append, List.append_assoc, List.nil_append]

/-! ## Loops -/

theorem Passes.eq_none_of_zero {α : Type} {rule : List α → Option (List α × List α)} {cs after : List α} {n : Nat}
    (h : Passes rule cs after n) (hn : n = 0) : ∀ c k, c :: k <:+ cs → rule (c :: k) = none := by
  induction h with
  | nil =>
    intro c k hk
    exact absurd (List.suffix_nil.1 hk) (List.cons_ne_nil c k)
  | keep hr _ ih =>
    intro c k hk
    rcases List.suffix_cons_iff.1 hk with heq | hk
    · rw [heq, hr]
    · exact ih hn c k hk
  | replace _ _ _ => exact absurd hn (Nat.succ_ne_zero _)

theorem Passes.of_eq_none {rule : Rule} : ∀ {cs : List Char}, (∀ c k, c :: k <:+ cs → rule (c :: k) = none) →
    Passes rule cs cs 0
  | [], _ => .nil
  | c :: cs, h => .keep (h c cs (List.suffix_refl _))
    (.of_eq_none fun d k hk => h d k (hk.trans (List.suffix_cons c cs)))

/-- **A pass replaces nothing exactly if the pattern has no match in the text.** -/
theorem Rule.Finds.pass_eq_zero_iff {rule : Rule} {pattern : List Char → Prop} (hfinds : rule.Finds pattern)
    (hrule : rule.Consumes) (cs : List Char) : (pass rule cs).2 = 0 ↔ ∀ m, pattern m → ¬ m <:+: cs := by
  have hpass := passes_pass hrule cs
  constructor
  · rintro hzero m hm ⟨s, t, rfl⟩
    obtain ⟨c, m, rfl⟩ := List.exists_cons_of_ne_nil (hfinds.ne_nil hm)
    have hnone := hpass.eq_none_of_zero hzero c (m ++ t) ⟨s, by simp⟩
    exact (hfinds.eq_none_iff _).1 hnone _ hm (List.prefix_append _ _)
  · intro hpattern
    refine (hpass.unique (.of_eq_none fun c k hk => ?_)).2
    exact (hfinds.eq_none_iff _).2 fun m hm hbegins => hpattern m hm (hbegins.isInfix.trans hk.isInfix)

/-- A rule whose loop ends on every text, where each replacement takes so many pairs of parentheses away. -/
structure Rule.LoopEnds (rule : Rule) (pattern : List Char → Prop) (pairs : Nat) : Prop where
  /-- A pass replaces something exactly if the pattern has a match. -/
  replaces_iff : ∀ cs, (pass rule cs).2 ≠ 0 ↔ ∃ m, pattern m ∧ m <:+: cs
  /-- A pass that replaces something leaves fewer opening parentheses. -/
  fewer : ∀ cs, (pass rule cs).2 ≠ 0 → (pass rule cs).1.count '(' < cs.count '('
  /-- A pass takes as many opening as closing parentheses away. -/
  taken : ∀ cs, cs.count '(' = (pass rule cs).1.count '(' + pairs * (pass rule cs).2 ∧
    cs.count ')' = (pass rule cs).1.count ')' + pairs * (pass rule cs).2
  /-- The loop ends, in what the rule is exhausted to. -/
  ends : ∀ cs, ∃ n, Loops rule cs (exhaust rule cs) n
  /-- However the loop ends, it made at most one pass more than there are opening parentheses, and no match is left. -/
  bounded : ∀ cs out n, Loops rule cs out n → n ≤ cs.count '(' + 1 ∧ ∀ m, pattern m → ¬ m <:+: out

theorem Rule.Finds.loopEnds {rule : Rule} {pattern : List Char → Prop} (hfinds : rule.Finds pattern)
    (hrule : rule.Consumes) {pairs : Nat} (hpairs : 0 < pairs)
    (htakes : ∀ {p : Char}, p = '(' ∨ p = ')' → rule.Takes p pairs) :
    rule.LoopEnds pattern pairs where
  replaces_iff cs := by
    rw [Ne, hfinds.pass_eq_zero_iff hrule cs]
    simp only [Classical.not_forall, Classical.not_not, exists_prop]
  fewer cs := count_pass_lt hrule hpairs (htakes (.inl rfl))
  taken cs := ⟨(passes_pass hrule cs).count_eq (htakes (.inl rfl)), (passes_pass hrule cs).count_eq (htakes (.inr rfl))⟩
  ends cs := exists_loops hrule hpairs (htakes (.inl rfl)) cs
  bounded cs out n h :=
    ⟨h.le_count hrule hpairs (htakes (.inl rfl)), (hfinds.pass_eq_zero_iff hrule out).1 (h.pass_eq_zero hrule)⟩

/-- The text on which the first loop begins: without the types of agents and, where there are directives, without them.
-/
def loopStart (dialect : Dialect) (cs : List Char) : List Char :=
  match dialect with
  | .levels => (pass agentType cs).1
  | .groups => (pass includeDirective (pass agentType cs).1).1

/-- **Both rewriting loops end on every text**: each pass that replaces something takes opening parentheses away, and as
many closing ones, so that there is at most one pass more than the text has opening parentheses, and no match of the
pattern is left.  A text is read from what the two loops, one behind the other, come to. -/
theorem rewriting_loops_end :
    Rule.LoopEnds doubleParentheses IsDoubled 2 ∧ Rule.LoopEnds operatorParentheses IsGlued 1 ∧
    ∀ (dialect : Dialect) (text : String), ∃ (mid out : List Char) (n m : Nat),
      Loops doubleParentheses (loopStart dialect (plain (unifyNewlines text.toList))) mid n ∧
      Loops operatorParentheses mid out m ∧ scan dialect text = nest (tokens out) := by
  have hdouble := doubleParentheses_finds.loopEnds doubleParentheses_consumes Nat.two_pos doubleParentheses_takes
  have hoperator := operatorParentheses_finds.loopEnds operatorParentheses_consumes Nat.one_pos
    operatorParentheses_takes
  refine ⟨hdouble, hoperator, fun dialect text => ?_⟩
  obtain ⟨n, hn⟩ := hdouble.ends (loopStart dialect (plain (unifyNewlines text.toList)))
  obtain ⟨m, hm⟩ := hoperator.ends (exhaust doubleParentheses (loopStart dialect (plain (unifyNewlines text.toList))))
  refine ⟨_, _, n, m, hn, hm, ?_⟩
  cases dialect <;> rfl

end Epistemic.Source
