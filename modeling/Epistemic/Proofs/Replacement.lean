import Epistemic.Source.Replacement
/-!
# Replacement, step by step

A pass is a sequence of characters kept and parts replaced (`Passes`), for every rule that hands back an end of the
text it is given.  What one replacement preserves a pass preserves, and what a pass preserves all passes preserve.  A
rule of which every replacement takes opening parentheses away is exhausted when `exhaust` stops: the loop that repeats
its passes (`Loops`) ends there, after at most one pass more than there are opening parentheses.
-/
namespace Epistemic.Source

/-- **One pass, step by step**: a symbol is kept where the rule does not match; where it matches, the part is replaced
and the pass goes on behind it.  The number is that of the replacements. -/
inductive Passes {α : Type} (rule : List α → Option (List α × List α)) : List α → List α → Nat → Prop
  | nil : Passes rule [] [] 0
  | keep {c : α} {cs after : List α} {n : Nat} (hr : rule (c :: cs) = none) (h : Passes rule cs after n) :
      Passes rule (c :: cs) (c :: after) n
  | replace {c : α} {cs new rest after : List α} {n : Nat} (hr : rule (c :: cs) = some (new, rest))
      (h : Passes rule rest after n) : Passes rule (c :: cs) (new ++ after) (n + 1)

/-- A rule that matches at least one character, and hands back the text behind its match. -/
def Rule.Consumes (rule : Rule) : Prop :=
  ∀ c cs new rest, rule (c :: cs) = some (new, rest) → rest <:+ cs

theorem passFrom_eq_drop (rule : Rule) : ∀ (skip : Nat) (cs : List Char),
    passFrom rule skip cs = passFrom rule 0 (cs.drop skip)
  | 0, cs => by rw [List.drop_zero]
  | skip + 1, [] => by simp [passFrom]
  | skip + 1, c :: cs => by rw [passFrom, List.drop_succ_cons, passFrom_eq_drop rule skip cs]

theorem passFrom_of_suffix (rule : Rule) {cs rest : List Char} (h : rest <:+ cs) :
    passFrom rule (cs.length - rest.length) cs = pass rule rest := by
  rw [passFrom_eq_drop, ← List.suffix_iff_eq_drop.1 h, pass]

theorem pass_of_none {rule : Rule} {c : Char} {cs : List Char} (h : rule (c :: cs) = none) :
    pass rule (c :: cs) = (c :: (pass rule cs).1, (pass rule cs).2) := by
  rw [pass, passFrom, h]
  rfl

/-- A pass keeps what stands before the first place where the rule can match. -/
theorem pass_append_of_none {rule : Rule} {w : List Char} (h : ∀ c ∈ w, ∀ cs, rule (c :: cs) = none) (k : List Char) :
    pass rule (w ++ k) = (w ++ (pass rule k).1, (pass rule k).2) := by
  induction w with
  | nil => rfl
  | cons c w ih =>
    obtain ⟨hc, hw⟩ := List.forall_mem_cons.1 h
    rw [List.cons_append, pass_of_none (hc _), ih hw, List.cons_append]

theorem pass_of_some {rule : Rule} {c : Char} {cs new rest : List Char} (hrest : rest <:+ cs)
    (h : rule (c :: cs) = some (new, rest)) :
    pass rule (c :: cs) = (new ++ (pass rule rest).1, (pass rule rest).2 + 1) := by
  rw [pass, passFrom, h]
  simp only [passFrom_of_suffix rule hrest]

/-- **`pass` passes**, for a rule that consumes. -/
theorem passes_pass {rule : Rule} (hrule : rule.Consumes) (cs : List Char) :
    Passes rule cs (pass rule cs).1 (pass rule cs).2 := by
  -- a replacement skips any number of characters, so the induction is on the length
  induction hn : cs.length using Nat.strongRecOn generalizing cs with
  | _ n ih =>
    subst hn
    cases cs with
    | nil => exact .nil
    | cons c cs =>
      unfold pass passFrom
      cases hr : rule (c :: cs) with
      | none =>
        exact .keep hr (ih cs.length (by simp) cs rfl)
      | some m =>
        obtain ⟨new, rest⟩ := m
        have hs := hrule c cs new rest hr
        have hlt : rest.length < (c :: cs).length := Nat.lt_succ_of_le hs.length_le
        simp only
        rw [passFrom_of_suffix rule hs]
        exact .replace hr (ih rest.length hlt rest rfl)

theorem Passes.eq_of_zero {α : Type} {rule : List α → Option (List α × List α)} {cs after : List α} {n : Nat}
    (h : Passes rule cs after n) (hn : n = 0) : after = cs := by
  induction h with
  | nil => rfl
  | keep _ _ ih => rw [ih hn]
  | replace _ _ _ => exact absurd hn (Nat.succ_ne_zero _)

/-- The pass of a rule is determined. -/
theorem Passes.unique {α : Type} {rule : List α → Option (List α × List α)} {cs a₁ : List α} {n₁ : Nat}
    (h₁ : Passes rule cs a₁ n₁) : ∀ {a₂ : List α} {n₂ : Nat}, Passes rule cs a₂ n₂ → a₁ = a₂ ∧ n₁ = n₂ := by
  induction h₁ with
  | nil => intro a₂ n₂ h₂; cases h₂; exact ⟨rfl, rfl⟩
  | keep hr _ ih =>
    intro a₂ n₂ h₂
    cases h₂ with
    | keep _ h => obtain ⟨rfl, rfl⟩ := ih h; exact ⟨rfl, rfl⟩
    | replace hr' _ => rw [hr] at hr'; cases hr'
  | replace hr _ ih =>
    intro a₂ n₂ h₂
    cases h₂ with
    | keep hr' _ => rw [hr] at hr'; cases hr'
    | replace hr' h =>
      rw [hr] at hr'
      cases hr'
      obtain ⟨rfl, rfl⟩ := ih h
      exact ⟨rfl, rfl⟩

/-- A pass keeps a text that does not hold the character with which the rule begins. -/
theorem Passes.keep_append {α : Type} {rule : List α → Option (List α × List α)} {x : α}
    (hrule : ∀ c cs, c ≠ x → rule (c :: cs) = none) {k after : List α} {n : Nat} (h : Passes rule k after n) :
    ∀ {w : List α}, x ∉ w → Passes rule (w ++ k) (w ++ after) n
  | [], _ => h
  | c :: w, hw => by
    rw [List.mem_cons, not_or] at hw
    exact .keep (hrule c _ (Ne.symm hw.1)) (keep_append hrule h hw.2)

/-- **What a pass preserves, all passes preserve.** -/
theorem exhaustWithin_induction {rule : Rule} (P : List Char → Prop) (hstep : ∀ cs, P cs → P (pass rule cs).1) :
    ∀ (fuel : Nat) (cs : List Char), P cs → P (exhaustWithin rule fuel cs)
  | 0, _, h => h
  | fuel + 1, cs, h => by
    have hp := hstep cs h
    unfold exhaustWithin
    split
    · rename_i new heq; rw [heq] at hp; exact hp
    · rename_i new n heq
      rw [heq] at hp
      exact exhaustWithin_induction P hstep fuel new hp

/-- What a rule never matches stays in front of a text. -/
theorem exhaust_cons_of_none {rule : Rule} {c : Char} (hc : c ≠ '(')
    (h : ∀ cs, rule (c :: cs) = none) (cs : List Char) :
    exhaust rule (c :: cs) = c :: exhaust rule cs := by
  have hwithin : ∀ (fuel : Nat) (cs : List Char), exhaustWithin rule fuel (c :: cs) =
      c :: exhaustWithin rule fuel cs := by
    intro fuel
    induction fuel with
    | zero => exact fun cs => rfl
    | succ fuel ih =>
      intro cs
      rw [exhaustWithin, exhaustWithin, pass_of_none (h cs)]
      obtain ⟨new, n⟩ := pass rule cs
      cases n with
      | zero => rfl
      | succ n => exact ih new
  rw [exhaust, exhaust, List.count_cons_of_ne hc, hwithin]

theorem exhaust_eq_self {rule : Rule} (hrule : rule.Consumes) {cs : List Char} (h : (pass rule cs).2 = 0) :
    exhaust rule cs = cs := by
  have hself := (passes_pass hrule cs).eq_of_zero h
  unfold exhaust exhaustWithin
  split
  · rename_i new heq; rw [heq] at hself; exact hself
  · rename_i new n heq; rw [heq] at h; cases h

/-- A rule of which every replacement takes `k` times the same character away. -/
def Rule.Takes (rule : Rule) (p : Char) (k : Nat) : Prop :=
  ∀ c cs new rest, rule (c :: cs) = some (new, rest) → (c :: cs).count p = (new ++ rest).count p + k

/-- **A pass takes away what its replacements take away.** -/
theorem Passes.count_eq {rule : Rule} {p : Char} {k : Nat} (htakes : rule.Takes p k) {cs after : List Char} {n : Nat}
    (h : Passes rule cs after n) : cs.count p = after.count p + k * n := by
  induction h with
  | nil => rfl
  | keep _ _ ih =>
    rw [List.count_cons, List.count_cons, ih]
    omega
  | replace hr _ ih =>
    have hone := htakes _ _ _ _ hr
    rw [List.count_append] at hone ⊢
    rw [hone, ih, Nat.mul_succ]
    omega

/-- **The loop of a rule**: passes until one replaces nothing.  The number is that of the passes, the last one
included. -/
inductive Loops (rule : Rule) : List Char → List Char → Nat → Prop
  | done {cs : List Char} (h : (pass rule cs).2 = 0) : Loops rule cs (pass rule cs).1 1
  | again {cs out : List Char} {n : Nat} (h : (pass rule cs).2 ≠ 0) (hrest : Loops rule (pass rule cs).1 out n) :
      Loops rule cs out (n + 1)

section
variable {rule : Rule} (hrule : rule.Consumes)
include hrule

theorem Loops.pass_eq_zero {cs out : List Char} {n : Nat} (h : Loops rule cs out n) : (pass rule out).2 = 0 := by
  induction h with
  | done h => rwa [(passes_pass hrule _).eq_of_zero h]
  | again _ _ ih => exact ih

variable {k : Nat} (hk : 0 < k) (htakes : rule.Takes '(' k)
include hk htakes

/-- **A pass that replaces something takes opening parentheses away.** -/
theorem count_pass_lt {cs : List Char} (h : (pass rule cs).2 ≠ 0) : (pass rule cs).1.count '(' < cs.count '(' := by
  rw [(passes_pass hrule cs).count_eq htakes]
  have := Nat.mul_pos hk (Nat.pos_of_ne_zero h)
  omega

/-- **There are fewer passes that replace something than opening parentheses.** -/
theorem Loops.le_count {cs out : List Char} {n : Nat} (h : Loops rule cs out n) : n ≤ cs.count '(' + 1 := by
  induction h with
  | done _ => omega
  | again h _ ih =>
    have := count_pass_lt hrule hk htakes h
    omega

/-- **The loop of a rule ends in what `exhaust` gives.** -/
theorem exists_loops (cs : List Char) : ∃ n, Loops rule cs (exhaust rule cs) n := by
  suffices ∀ (fuel : Nat) (cs : List Char), cs.count '(' < fuel → ∃ n, Loops rule cs (exhaustWithin rule fuel cs) n from
    this _ cs (Nat.lt_succ_self _)
  intro fuel
  induction fuel with
  | zero => intro cs h; exact absurd h (Nat.not_lt_zero _)
  | succ fuel ih =>
    intro cs h
    unfold exhaustWithin
    split
    · rename_i new heq
      have hdone : Loops rule cs (pass rule cs).1 1 := .done (by rw [heq])
      rw [heq] at hdone
      exact ⟨1, hdone⟩
    · rename_i new n heq
      have hne : (pass rule cs).2 ≠ 0 := by
        rw [heq]
        exact Nat.succ_ne_zero n
      have hlt := count_pass_lt hrule hk htakes hne
      rw [heq] at hlt
      obtain ⟨m, hm⟩ := ih new (by simp only at hlt; omega)
      exact ⟨m + 1, .again hne (by rwa [heq])⟩

/-- **`exhaust` exhausts**: no replacement is left when it stops. -/
theorem pass_exhaust (cs : List Char) : (pass rule (exhaust rule cs)).2 = 0 := by
  obtain ⟨n, hn⟩ := exists_loops hrule hk htakes cs
  exact hn.pass_eq_zero hrule

end

end Epistemic.Source
