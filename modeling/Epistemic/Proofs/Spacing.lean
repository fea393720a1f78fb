import Epistemic.Proofs.Rendering
/-!
# White space does not matter

Two texts that differ in their white space only, where one has some exactly where the other has some (`Respaced`), are
read alike: each rule matches in both at the same places and leaves texts that differ in white space only, so that all
passes do, and their tokens are the same (`scan_respaced`).
-/
namespace Epistemic.Source

open Text (isBlank splitLast?)

/-- A property that is found of each character in turn. -/
theorem forall_mem_of_all {P : Char → Prop} [DecidablePred P] {cs : List Char}
    (h : (cs.all fun c => decide (P c)) = true) : ∀ c ∈ cs, P c :=
  fun c hc => of_decide_eq_true (List.all_eq_true.1 h c hc)

/-- **Texts that differ in their white space only**: a run of white space is exchanged for another one, and neither is
empty. -/
inductive Respaced : List Char → List Char → Prop
  | nil : Respaced [] []
  | keep (c : Char) {cs ds : List Char} (h : Respaced cs ds) : Respaced (c :: cs) (c :: ds)
  | run {r s cs ds : List Char} (hr : r ≠ []) (hs : s ≠ []) (hrb : ∀ c ∈ r, isBlank c = true)
      (hsb : ∀ c ∈ s, isBlank c = true) (h : Respaced cs ds) : Respaced (r ++ cs) (s ++ ds)

namespace Respaced

variable {cs ds : List Char}

theorem refl : ∀ cs : List Char, Respaced cs cs
  | [] => .nil
  | c :: cs => .keep c (refl cs)

theorem symm (h : Respaced cs ds) : Respaced ds cs := by
  induction h with
  | nil => exact .nil
  | keep c _ ih => exact .keep c ih
  | run hr hs hrb hsb _ ih => exact .run hs hr hsb hrb ih

theorem append {as bs : List Char} (h : Respaced as bs) (k : Respaced cs ds) : Respaced (as ++ cs) (bs ++ ds) := by
  induction h with
  | nil => exact k
  | keep c _ ih => exact .keep c ih
  | run hr hs hrb hsb _ ih =>
    rw [List.append_assoc, List.append_assoc]
    exact .run hr hs hrb hsb ih

theorem eq_nil_iff (h : Respaced cs ds) : cs = [] ↔ ds = [] := by
  cases h with
  | nil => exact Iff.rfl
  | keep c _ => exact iff_of_false (List.cons_ne_nil _ _) (List.cons_ne_nil _ _)
  | run hr hs _ _ _ =>
    exact iff_of_false (List.append_ne_nil_of_left_ne_nil hr _) (List.append_ne_nil_of_left_ne_nil hs _)

/-- A character that is not blank stands at the same place in the other text. -/
theorem of_cons {c : Char} (hc : isBlank c = false) (h : Respaced (c :: cs) ds) :
    ∃ ds', ds = c :: ds' ∧ Respaced cs ds' := by
  generalize hx : c :: cs = x at h
  cases h with
  | nil => cases hx
  | keep d h =>
    cases hx
    exact ⟨_, rfl, h⟩
  | @run r s cs' ds' hr _ hrb _ _ =>
    obtain ⟨d, r, rfl⟩ := List.exists_cons_of_ne_nil hr
    cases hx
    rw [hrb c List.mem_cons_self] at hc
    cases hc

theorem of_append {w : List Char} (hw : ∀ c ∈ w, isBlank c = false) (h : Respaced (w ++ cs) ds) :
    ∃ ds', ds = w ++ ds' ∧ Respaced cs ds' := by
  induction w generalizing ds with
  | nil => exact ⟨ds, rfl, h⟩
  | cons c w ih =>
    obtain ⟨hc, hw⟩ := List.forall_mem_cons.1 hw
    obtain ⟨ds', rfl, hrest⟩ := of_cons hc h
    obtain ⟨ds'', rfl, hbehind⟩ := ih hw hrest
    exact ⟨ds'', rfl, hbehind⟩

theorem count_eq {d : Char} (hd : isBlank d = false) (h : Respaced cs ds) : cs.count d = ds.count d := by
  have hrun : ∀ {r : List Char}, (∀ c ∈ r, isBlank c = true) → r.count d = 0 := by
    intro r hr
    refine List.count_eq_zero.2 fun hm => ?_
    rw [hr d hm] at hd
    cases hd
  induction h with
  | nil => rfl
  | keep c _ ih => rw [List.count_cons, List.count_cons, ih]
  | run _ _ hrb hsb _ ih => rw [List.count_append, List.count_append, hrun hrb, hrun hsb, ih]

theorem not_mem {d : Char} (hd : isBlank d = false) (h : Respaced cs ds) (hcs : d ∉ cs) : d ∉ ds := by
  rw [← List.count_eq_zero] at hcs ⊢
  rw [← h.count_eq hd, hcs]

section
variable {p : Char → Bool} (hp : ∀ c, isBlank c = true → p c = true)
include hp

theorem takeWhile (h : Respaced cs ds) : Respaced (cs.takeWhile p) (ds.takeWhile p) := by
  induction h with
  | nil => exact .nil
  | keep c h ih =>
    by_cases hc : p c = true
    · rw [List.takeWhile_cons_of_pos hc, List.takeWhile_cons_of_pos hc]
      exact .keep c ih
    · rw [List.takeWhile_cons_of_neg hc, List.takeWhile_cons_of_neg hc]
      exact .nil
  | run hr hs hrb hsb _ ih =>
    rw [List.takeWhile_append_of_pos fun c hc => hp c (hrb c hc),
      List.takeWhile_append_of_pos fun c hc => hp c (hsb c hc)]
    exact .run hr hs hrb hsb ih

/-- Characters at the front go together if all blanks do. -/
theorem dropWhile (h : Respaced cs ds) : Respaced (cs.dropWhile p) (ds.dropWhile p) := by
  induction h with
  | nil => exact .nil
  | keep c h ih =>
    by_cases hc : p c = true
    · rwa [List.dropWhile_cons_of_pos hc, List.dropWhile_cons_of_pos hc]
    · rw [List.dropWhile_cons_of_neg hc, List.dropWhile_cons_of_neg hc]
      exact .keep c h
  | run _ _ hrb hsb _ ih =>
    rwa [List.dropWhile_append_of_pos fun c hc => hp c (hrb c hc),
      List.dropWhile_append_of_pos fun c hc => hp c (hsb c hc)]

end

theorem blanks (h : Respaced cs ds) (hcs : ∀ c ∈ cs, isBlank c = true) : ∀ c ∈ ds, isBlank c = true := by
  induction h with
  | nil => exact hcs
  | keep c _ ih =>
    obtain ⟨hc, hcs⟩ := List.forall_mem_cons.1 hcs
    exact List.forall_mem_cons.2 ⟨hc, ih hcs⟩
  | run _ _ _ hsb _ ih => exact List.forall_mem_append.2 ⟨hsb, ih (List.forall_mem_append.1 hcs).2⟩

/-- A character that is not blank splits both texts. -/
theorem of_append_cons {c : Char} (hc : isBlank c = false) {a b : List Char} (h : Respaced (a ++ c :: b) ds) :
    ∃ a' b', ds = a' ++ c :: b' ∧ Respaced a a' ∧ Respaced b b' := by
  generalize hx : a ++ c :: b = x at h
  induction h generalizing a with
  | nil => exact absurd hx (by simp)
  | @keep d xs ys h ih =>
    cases a with
    | nil =>
      cases hx
      exact ⟨[], ys, rfl, .nil, h⟩
    | cons e a =>
      obtain ⟨rfl, htail⟩ := List.cons.inj hx
      obtain ⟨a', b', rfl, ha, hb⟩ := ih htail
      exact ⟨e :: a', b', rfl, .keep e ha, hb⟩
  | @run r s xs ys hr hs hrb hsb _ ih =>
    -- the character is not in the run, so that the run lies before it
    rcases List.append_eq_append_iff.1 hx with ⟨w, rfl, hw⟩ | ⟨w, rfl, hw⟩
    · cases w with
      | nil =>
        obtain ⟨a', b', rfl, ha, hb⟩ := ih (a := []) hw
        exact ⟨s ++ a', b', by rw [List.append_assoc], by simpa using Respaced.run hr hs hrb hsb ha, hb⟩
      | cons e w =>
        obtain ⟨rfl, -⟩ := List.cons.inj hw
        rw [hrb c (by simp)] at hc
        cases hc
    · obtain ⟨a', b', rfl, ha, hb⟩ := ih hw.symm
      exact ⟨s ++ a', b', by rw [List.append_assoc], .run hr hs hrb hsb ha, hb⟩

/-- What is found in one text is found in the other, and so, the relation being symmetric, what is not. -/
theorem rel_of_imp {α : Type} {R : α → α → Prop} {f : List Char → Option α}
    (himp : ∀ {cs ds : List Char} {m : α}, Respaced cs ds → f cs = some m → ∃ m', f ds = some m' ∧ R m m')
    (h : Respaced cs ds) : Option.Rel R (f cs) (f ds) := by
  cases hf : f cs with
  | some m =>
    obtain ⟨m', hm', hrel⟩ := himp h hf
    rw [hm']
    exact .some hrel
  | none =>
    cases hf' : f ds with
    | none => exact .none
    | some m' =>
      obtain ⟨m, hm, -⟩ := himp h.symm hf'
      rw [hf] at hm
      cases hm

theorem rel_cases {α : Type} {R : α → α → Prop} {x y : Option α} (h : Option.Rel R x y) :
    x = none ∧ y = none ∨ ∃ m m', x = some m ∧ y = some m' ∧ R m m' := by
  cases h with
  | some hm => exact .inr ⟨_, _, rfl, rfl, hm⟩
  | none => exact .inl ⟨rfl, rfl⟩

/-! ## Rules -/

/-- Parts of two texts that differ in white space only, and the rests behind them. -/
def Parts (m m' : List Char × List Char) : Prop := Respaced m.1 m'.1 ∧ Respaced m.2 m'.2

theorem agentTypeEnd? (h : Respaced cs ds) :
    Option.Rel Respaced (Source.agentTypeEnd? cs) (Source.agentTypeEnd? ds) := by
  refine rel_of_imp (fun {cs ds rest} h hend => ?_) h
  obtain ⟨blanks, hblanks, rfl⟩ := agentTypeEnd?_some hend
  have hword : ∀ c ∈ "-agent".toList, isBlank c = false := forall_mem_of_all (by decide +kernel)
  obtain ⟨tail, rfl, htail⟩ := of_append hword h
  have hdrop := htail.dropWhile fun _ hc => hc
  rw [List.dropWhile_append_of_pos hblanks, List.dropWhile_cons_of_neg (by decide)] at hdrop
  obtain ⟨rest', hrest', hrel⟩ := of_cons (by decide) hdrop
  refine ⟨rest', ?_, hrel⟩
  rw [Source.agentTypeEnd?, if_pos (List.isPrefixOf_iff_prefix.2 (List.prefix_append _ _))]
  have hsix : ("-agent".toList ++ tail).drop 6 = tail := rfl
  simp only [hsix, hrest']

theorem lastAgentType?_blanks {r : List Char} (hr : ∀ c ∈ r, isBlank c = true) (k : List Char) :
    Source.lastAgentType? (r ++ k) = (Source.lastAgentType? k).map fun m => (r ++ m.1, m.2) := by
  induction r with
  | nil => simp
  | cons c r ih =>
    obtain ⟨hc, hr⟩ := List.forall_mem_cons.1 hr
    have hopen : (c == '[') = false := by
      rw [beq_eq_false_iff_ne]
      rintro rfl
      exact absurd hc (by decide)
    have hend : Source.agentTypeEnd? (c :: (r ++ k)) = none := by
      have hpre : "-agent".toList.isPrefixOf (c :: (r ++ k)) = false := by
        have hne : ('-' == c) = false := by
          rw [beq_eq_false_iff_ne]
          rintro rfl
          exact absurd hc (by decide)
        show (('-' == c) && _) = false
        rw [hne, Bool.false_and]
      rw [Source.agentTypeEnd?, hpre]
      rfl
    rw [List.cons_append, Source.lastAgentType?, hopen, ih hr, hend]
    cases Source.lastAgentType? k <;> rfl

theorem lastAgentType? (h : Respaced cs ds) :
    Option.Rel Parts (Source.lastAgentType? cs) (Source.lastAgentType? ds) := by
  induction h with
  | nil => exact .none
  | @keep c cs ds h ih =>
    unfold Source.lastAgentType?
    by_cases hc : (c == '[') = true
    · rw [if_pos hc, if_pos hc]
      exact .none
    · rw [if_neg hc, if_neg hc]
      obtain ⟨hx, hy⟩ | ⟨m, m', hx, hy, hm⟩ := rel_cases ih
      · rw [hx, hy]
        obtain ⟨hend, hend'⟩ | ⟨rest, rest', hend, hend', hrest⟩ := rel_cases (Respaced.keep c h).agentTypeEnd?
        · rw [hend, hend']
          exact .none
        · rw [hend, hend']
          exact .some ⟨.nil, hrest⟩
      · rw [hx, hy]
        exact .some ⟨.keep c hm.1, hm.2⟩
  | run hr hs hrb hsb _ ih =>
    rw [lastAgentType?_blanks hrb, lastAgentType?_blanks hsb]
    obtain ⟨hx, hy⟩ | ⟨m, m', hx, hy, hm⟩ := rel_cases ih
    · rw [hx, hy]
      exact .none
    · rw [hx, hy]
      exact .some ⟨.run hr hs hrb hsb hm.1, hm.2⟩

theorem closed? (h : Respaced cs ds) : Option.Rel Parts (Source.closed? cs) (Source.closed? ds) := by
  refine rel_of_imp (fun {cs ds m} h hm => ?_) h
  obtain ⟨inner, rest⟩ := m
  obtain ⟨rfl, hne, hopen, hlast⟩ := closed?_some hm
  obtain ⟨inner', rest', rfl, hinner, hrest⟩ := of_append_cons (by decide) h
  have hreach : Respaced (rest.takeWhile (· != '(')) (rest'.takeWhile (· != '(')) := by
    refine hrest.takeWhile fun c hc => ?_
    rw [bne_iff_ne]
    rintro rfl
    exact absurd hc (by decide)
  exact ⟨(inner', rest'), closed?_append (mt hinner.eq_nil_iff.2 hne) (hinner.not_mem (by decide) hopen)
    (hreach.not_mem (by decide) hlast), hinner, hrest⟩

theorem lastOperator?_of_some {c : Char} (hc : c ≠ '[') {m : List Char × List Char × List Char}
    (hm : Source.lastOperator? cs = some m) : Source.lastOperator? (c :: cs) = some (c :: m.1, m.2) := by
  unfold Source.lastOperator?
  rw [if_neg (by rwa [beq_iff_eq]), hm]

theorem lastOperator?_of_none {c : Char} (hc : ¬ (c = ']' ∧ ∃ k, cs = '(' :: k))
    (hnone : Source.lastOperator? cs = none) : Source.lastOperator? (c :: cs) = none := by
  unfold Source.lastOperator?
  rw [hnone]
  split
  · rfl
  · simp only
    split
    · exact absurd ⟨rfl, _, rfl⟩ hc
    · rfl

theorem lastOperator?_bracket {k : List Char} (hnone : Source.lastOperator? ('(' :: k) = none) :
    Source.lastOperator? (']' :: '(' :: k) = (Source.closed? k).map fun m => ([], m.1, m.2) := by
  rw [Source.lastOperator?, hnone]
  rfl

theorem lastOperator?_blanks {r : List Char} (hr : ∀ c ∈ r, isBlank c = true) (k : List Char) :
    Source.lastOperator? (r ++ k) = (Source.lastOperator? k).map fun m => (r ++ m.1, m.2) := by
  induction r with
  | nil => simp
  | cons c r ih =>
    obtain ⟨hc, hr⟩ := List.forall_mem_cons.1 hr
    have hne : ∀ d, isBlank d = false → c ≠ d := by
      rintro d hd rfl
      rw [hc] at hd
      cases hd
    rw [List.cons_append]
    cases hk : Source.lastOperator? k with
    | some m =>
      rw [hk] at ih
      exact lastOperator?_of_some (hne '[' (by decide)) (ih hr)
    | none =>
      rw [hk] at ih
      exact lastOperator?_of_none (fun h => hne ']' (by decide) h.1) (ih hr)

theorem lastOperator? (h : Respaced cs ds) : Option.Rel (fun m m' => Respaced m.1 m'.1 ∧ Parts m.2 m'.2)
    (Source.lastOperator? cs) (Source.lastOperator? ds) := by
  induction h with
  | nil => exact .none
  | @keep c cs ds h ih =>
    by_cases hc : c = '['
    · subst hc
      exact .none
    · obtain ⟨hx, hy⟩ | ⟨m, m', hx, hy, hm⟩ := rel_cases ih
      · by_cases hbracket : c = ']' ∧ ∃ k, cs = '(' :: k
        · obtain ⟨rfl, k, rfl⟩ := hbracket
          obtain ⟨k', rfl, hk⟩ := of_cons (by decide) h
          rw [lastOperator?_bracket hx, lastOperator?_bracket hy]
          obtain ⟨hx, hy⟩ | ⟨m, m', hx, hy, hm⟩ := rel_cases hk.closed?
          · rw [hx, hy]
            exact .none
          · rw [hx, hy]
            exact .some ⟨.nil, hm⟩
        · have hbracket' : ¬ (c = ']' ∧ ∃ k, ds = '(' :: k) := by
            rintro ⟨rfl, k, rfl⟩
            obtain ⟨k', rfl, -⟩ := of_cons (by decide) h.symm
            exact hbracket ⟨rfl, k', rfl⟩
          rw [lastOperator?_of_none hbracket hx, lastOperator?_of_none hbracket' hy]
          exact .none
      · rw [lastOperator?_of_some hc hx, lastOperator?_of_some hc hy]
        exact .some ⟨.keep c hm.1, hm.2⟩
  | run hr hs hrb hsb _ ih =>
    rw [lastOperator?_blanks hrb, lastOperator?_blanks hsb]
    obtain ⟨hx, hy⟩ | ⟨m, m', hx, hy, hm⟩ := rel_cases ih
    · rw [hx, hy]
      exact .none
    · rw [hx, hy]
      exact .some ⟨.run hr hs hrb hsb hm.1, hm.2⟩

end Respaced

/-- A rule that matches at the same places of texts that differ in white space only, and replaces and leaves texts that
do. -/
structure Rule.IgnoresSpacing (rule : Rule) : Prop where
  consumes : rule.Consumes
  blank : ∀ c cs, isBlank c = true → rule (c :: cs) = none
  alike : ∀ (c : Char) {cs ds : List Char}, Respaced cs ds → Option.Rel Respaced.Parts (rule (c :: cs)) (rule (c :: ds))

theorem agentType_ignoresSpacing : Rule.IgnoresSpacing agentType where
  consumes := agentType_consumes
  blank c cs hc := agentType_of_ne c cs (by rintro rfl; exact absurd hc (by decide))
  alike c cs ds h := by
    by_cases hc : c = '['
    · subst hc
      unfold agentType
      obtain ⟨hx, hy⟩ | ⟨⟨before, rest⟩, ⟨before', rest'⟩, hx, hy, hbefore, hrest⟩ :=
        Respaced.rel_cases h.lastAgentType?
      · simp only [hx, hy]
        exact .none
      · cases before with
        | nil =>
          obtain rfl := hbefore.eq_nil_iff.1 rfl
          simp only [hx, hy]
          exact .none
        | cons d before =>
          obtain ⟨d', before', rfl⟩ := List.exists_cons_of_ne_nil (mt hbefore.eq_nil_iff.2 (List.cons_ne_nil d before))
          simp only [hx, hy]
          exact .some ⟨.keep '[' (hbefore.append (.refl [']'])), hrest⟩
    · rw [agentType_of_ne c cs hc, agentType_of_ne c ds hc]
      exact .none

theorem operatorParentheses_ignoresSpacing : Rule.IgnoresSpacing operatorParentheses where
  consumes := operatorParentheses_consumes
  blank c cs hc := operatorParentheses_of_ne c cs (by rintro rfl; exact absurd hc (by decide))
  alike c cs ds h := by
    by_cases hc : c = '['
    · subst hc
      unfold operatorParentheses
      obtain ⟨hx, hy⟩ | ⟨⟨before, inner, rest⟩, ⟨before', inner', rest'⟩, hx, hy, hbefore, hinner, hrest⟩ :=
        Respaced.rel_cases h.lastOperator?
      · simp only [hx, hy]
        exact .none
      · cases before with
        | nil =>
          obtain rfl := hbefore.eq_nil_iff.1 rfl
          simp only [hx, hy]
          exact .none
        | cons d before =>
          obtain ⟨d', before', rfl⟩ := List.exists_cons_of_ne_nil (mt hbefore.eq_nil_iff.2 (List.cons_ne_nil d before))
          simp only [hx, hy]
          exact .some ⟨.keep '[' (hbefore.append (.keep ']' hinner)), hrest⟩
    · rw [operatorParentheses_of_ne c cs hc, operatorParentheses_of_ne c ds hc]
      exact .none

theorem doubleParentheses_ignoresSpacing : Rule.IgnoresSpacing doubleParentheses where
  consumes := doubleParentheses_consumes
  blank c cs hc := doubleParentheses_of_ne c cs (by rintro rfl; exact absurd hc (by decide))
  alike c cs ds h := by
    refine Respaced.rel_of_imp (fun {cs ds m} h hm => ?_) (.keep c h)
    obtain ⟨new, rest⟩ := m
    obtain ⟨b₁, b₂, hb₁, hb₂, hnew, hne, rfl⟩ := doubleParentheses_some hm
    obtain ⟨k, rfl, h₁⟩ := h.of_cons (by decide)
    obtain ⟨b₁', k, rfl, hblanks₁, h₂⟩ := h₁.of_append_cons (by decide)
    obtain ⟨new', k, rfl, hinner, h₃⟩ := h₂.of_append_cons (by decide)
    obtain ⟨b₂', rest', rfl, hblanks₂, hrest⟩ := h₃.of_append_cons (by decide)
    have hnew' : ∀ c ∈ new', isParenthesis c = false := by
      have hnot : ∀ d, isParenthesis d = true → isBlank d = false → d ∉ new' := by
        intro d hd hblank
        refine hinner.not_mem hblank fun hmem => ?_
        rw [hnew d hmem] at hd
        cases hd
      intro c hc
      unfold isParenthesis
      rw [Bool.or_eq_false_iff, beq_eq_false_iff_ne, beq_eq_false_iff_ne]
      constructor
      · rintro rfl
        exact hnot '(' rfl (by decide) hc
      · rintro rfl
        exact hnot ')' rfl (by decide) hc
    exact ⟨(new', rest'), doubleParentheses_append (hblanks₁.blanks hb₁) (hblanks₂.blanks hb₂) hnew'
      (mt hinner.eq_nil_iff.2 hne) rest', hinner, hrest⟩

/-! ## Passes -/

section
variable {rule : Rule} (hrule : rule.IgnoresSpacing)
include hrule

theorem pass_blanks {r : List Char} (hr : ∀ c ∈ r, isBlank c = true) (k : List Char) :
    pass rule (r ++ k) = (r ++ (pass rule k).1, (pass rule k).2) :=
  pass_append_of_none (fun c hc cs => hrule.blank c cs (hr c hc)) k

/-- **One pass over each of the texts** replaces as often, and what it leaves differs in white space only. -/
theorem pass_respaced {cs ds : List Char} (h : Respaced cs ds) :
    Respaced (pass rule cs).1 (pass rule ds).1 ∧ (pass rule cs).2 = (pass rule ds).2 := by
  -- a replacement skips any number of characters, so the induction is on the length
  induction hn : cs.length using Nat.strongRecOn generalizing cs ds with
  | _ n ih =>
    subst hn
    cases h with
    | nil => exact ⟨.nil, rfl⟩
    | @keep c cs ds h =>
      obtain ⟨hx, hy⟩ | ⟨⟨new, rest⟩, ⟨new', rest'⟩, hx, hy, hnew, hrest⟩ := Respaced.rel_cases (hrule.alike c h)
      · rw [pass_of_none hx, pass_of_none hy]
        obtain ⟨hafter, hcount⟩ := ih cs.length (by simp) h rfl
        exact ⟨.keep c hafter, hcount⟩
      · rw [pass_of_some (hrule.consumes _ _ _ _ hx) hx, pass_of_some (hrule.consumes _ _ _ _ hy) hy]
        have hlt : rest.length < (c :: cs).length := Nat.lt_succ_of_le (hrule.consumes c cs new rest hx).length_le
        obtain ⟨hafter, hcount⟩ := ih rest.length hlt hrest rfl
        exact ⟨hnew.append hafter, congrArg (· + 1) hcount⟩
    | @run r s cs ds hr hs hrb hsb h =>
      rw [pass_blanks hrule hrb, pass_blanks hrule hsb]
      have hlt : cs.length < (r ++ cs).length := by
        rw [List.length_append]
        exact Nat.lt_add_of_pos_left (List.length_pos_iff.2 hr)
      obtain ⟨hafter, hcount⟩ := ih cs.length hlt h rfl
      exact ⟨.run hr hs hrb hsb hafter, hcount⟩

theorem exhaustWithin_respaced (fuel : Nat) {cs ds : List Char} (h : Respaced cs ds) :
    Respaced (exhaustWithin rule fuel cs) (exhaustWithin rule fuel ds) := by
  induction fuel generalizing cs ds with
  | zero => exact h
  | succ fuel ih =>
    obtain ⟨hafter, hcount⟩ := pass_respaced hrule h
    unfold exhaustWithin
    rcases hx : pass rule cs with ⟨new, _ | n⟩
    · rcases hy : pass rule ds with ⟨new', _ | n'⟩
      · rw [hx, hy] at hafter
        exact hafter
      · rw [hx, hy] at hcount
        cases hcount
    · rcases hy : pass rule ds with ⟨new', _ | n'⟩
      · rw [hx, hy] at hcount
        cases hcount
      · rw [hx, hy] at hafter
        exact ih hafter

theorem exhaust_respaced {cs ds : List Char} (h : Respaced cs ds) : Respaced (exhaust rule cs) (exhaust rule ds) := by
  rw [exhaust, exhaust, h.count_eq (by decide)]
  exact exhaustWithin_respaced hrule _ h

end

theorem normalize_respaced {cs ds : List Char} (h : Respaced cs ds) :
    Respaced (normalize .levels cs) (normalize .levels ds) := by
  unfold normalize
  apply exhaust_respaced operatorParentheses_ignoresSpacing
  apply exhaust_respaced doubleParentheses_ignoresSpacing
  exact (pass_respaced agentType_ignoresSpacing h).1

/-! ## Letters and line ends -/

/-- The code points of white space. -/
def blankCodes : List Nat := Text.blankSpans.flatMap fun s => List.range' s.first (s.last + 1 - s.first)

theorem toNat_mem_blankCodes {c : Char} (h : isBlank c = true) : c.toNat ∈ blankCodes := by
  obtain ⟨s, hs, hc⟩ := List.any_eq_true.1 h
  rw [Text.Span.contains, Bool.and_eq_true, decide_eq_true_eq, decide_eq_true_eq] at hc
  refine List.mem_flatMap.2 ⟨s, hs, List.mem_range'_1.2 ⟨hc.1, ?_⟩⟩
  omega

/-- A blank has no case, and ends a word. -/
theorem isCased_of_isBlank {c : Char} (h : isBlank c = true) :
    Text.lower [c] = [c] ∧ Text.isCased c = false ∧ Text.isCaseless c = false := by
  have hall : blankCodes.all (fun n => Text.lower [Char.ofNat n] == [Char.ofNat n] && !Text.isCased (Char.ofNat n) &&
      !Text.isCaseless (Char.ofNat n)) = true := by decide +kernel
  have hc := List.all_eq_true.1 hall c.toNat (toNat_mem_blankCodes h)
  rw [Char.ofNat_toNat] at hc
  simpa [and_assoc] using hc

theorem lowerFrom_cons {c : Char} (h : Text.lower [c] = [c]) (b : Bool) (k : List Char) :
    Text.lowerFrom b (c :: k) = c :: Text.lowerFrom (if Text.isCaseless c then b else Text.isCased c) k := by
  unfold Text.lower Text.lowerFrom at h
  rw [Text.lowerFrom]
  split at h
  · rename_i hsigma
    rw [beq_iff_eq] at hsigma
    subst hsigma
    exact absurd h (by decide)
  · rename_i hsigma
    rw [Text.lowerFrom, List.append_nil] at h
    rw [if_neg hsigma, h, List.singleton_append]

theorem lowerFrom_blank {c : Char} (hc : isBlank c = true) (b : Bool) (k : List Char) :
    Text.lowerFrom b (c :: k) = c :: Text.lowerFrom false k := by
  obtain ⟨hlower, hcased, hcaseless⟩ := isCased_of_isBlank hc
  rw [lowerFrom_cons hlower, hcaseless, if_neg (by decide), hcased]

theorem lowerFrom_blanks {r : List Char} (hne : r ≠ []) (hr : ∀ c ∈ r, isBlank c = true) (b : Bool) (k : List Char) :
    Text.lowerFrom b (r ++ k) = r ++ Text.lowerFrom false k := by
  induction r generalizing b with
  | nil => exact absurd rfl hne
  | cons c r ih =>
    obtain ⟨hc, hr⟩ := List.forall_mem_cons.1 hr
    rw [List.cons_append, lowerFrom_blank hc, List.cons_append]
    by_cases hnil : r = []
    · subst hnil
      rfl
    · rw [ih hnil hr]

theorem wordGoesOn_respaced {cs ds : List Char} (h : Respaced cs ds) : Text.wordGoesOn cs = Text.wordGoesOn ds := by
  have hrun : ∀ {r k : List Char}, r ≠ [] → (∀ c ∈ r, isBlank c = true) → Text.wordGoesOn (r ++ k) = false := by
    intro r k hne hr
    obtain ⟨c, r, rfl⟩ := List.exists_cons_of_ne_nil hne
    obtain ⟨-, hcased, hcaseless⟩ := isCased_of_isBlank (hr c List.mem_cons_self)
    rw [List.cons_append, Text.wordGoesOn, hcaseless, if_neg (by decide), hcased]
  induction h with
  | nil => rfl
  | keep c _ ih => rw [Text.wordGoesOn, Text.wordGoesOn, ih]
  | run hr hs hrb hsb _ _ => rw [hrun hr hrb, hrun hs hsb]

/-- The end of a word, which decides how a sigma is written, does not depend on the white space that follows. -/
theorem lowerFrom_respaced {cs ds : List Char} (h : Respaced cs ds) (b : Bool) :
    Respaced (Text.lowerFrom b cs) (Text.lowerFrom b ds) := by
  induction h generalizing b with
  | nil => exact .nil
  | keep c h ih =>
    rw [Text.lowerFrom, Text.lowerFrom, wordGoesOn_respaced h]
    exact (Respaced.refl _).append (ih _)
  | run hr hs hrb hsb _ ih =>
    rw [lowerFrom_blanks hr hrb, lowerFrom_blanks hs hsb]
    exact .run hr hs hrb hsb (ih false)

theorem unifyNewlines_respaced (cs : List Char) : Respaced (unifyNewlines cs) cs := by
  fun_induction unifyNewlines cs with
  | case1 => exact .nil
  | case2 cs ih =>
    exact .run (r := ['\n']) (s := ['\r', '\n']) (by simp) (by simp) (forall_mem_of_all (by decide))
      (forall_mem_of_all (by decide)) ih
  | case3 cs _ ih =>
    exact .run (r := ['\n']) (s := ['\r']) (by simp) (by simp) (forall_mem_of_all (by decide))
      (forall_mem_of_all (by decide)) ih
  | case4 c cs _ _ ih => exact .keep c ih

/-! ## Tokens -/

theorem tokens_blanks {r : List Char} (hr : ∀ c ∈ r, isBlank c = true) (k : List Char) :
    tokens (r ++ k) = tokens k := by
  induction r with
  | nil => rfl
  | cons c r ih =>
    obtain ⟨hc, hr⟩ := List.forall_mem_cons.1 hr
    have hmark : mark? c = none := by
      cases hm : mark? c with
      | none => rfl
      | some t =>
        have hne : ∀ d, isBlank d = false → (c == d) = false := by
          intro d hd
          rw [beq_eq_false_iff_ne]
          rintro rfl
          rw [hc] at hd
          cases hd
        simp only [mark?, hne '(' (by decide), hne ')' (by decide), hne '[' (by decide), hne ']' (by decide)] at hm
        cases hm
    rw [← ih hr, tokens, List.cons_append, tokensFrom, hmark]
    simp only [hc, if_true]
    rfl

theorem tokensFrom_respaced {cs ds : List Char} (h : Respaced cs ds) (letters : List Char) :
    tokensFrom letters cs = tokensFrom letters ds := by
  induction h generalizing letters with
  | nil => rfl
  | keep c _ ih => simp only [tokensFrom, ih]
  | @run r s cs ds hr hs hrb hsb _ ih =>
    have hdelimited : ∀ {r k : List Char}, r ≠ [] → (∀ c ∈ r, isBlank c = true) → Delimited (r ++ k) := by
      intro r k hne hr
      obtain ⟨c, r, rfl⟩ := List.exists_cons_of_ne_nil hne
      exact delimited_cons (by rw [hr c List.mem_cons_self, Bool.true_or]) _
    rw [tokensFrom_delimited (hdelimited hr hrb), tokensFrom_delimited (hdelimited hs hsb), tokens_blanks hrb,
      tokens_blanks hsb, tokens, tokens, ih]

/-- **White space does not matter**: two texts without comments that differ only in that runs of white space are
exchanged for others are read into the same tree, or refused for the same reason. -/
theorem scan_respaced {s t : String} (hs : ';' ∉ s.toList) (h : Respaced s.toList t.toList) :
    scan .levels s = scan .levels t := by
  have hplain : ∀ {cs : List Char}, ';' ∉ cs → plain (unifyNewlines cs) = Text.lower (unifyNewlines cs) := by
    intro cs hcs
    rw [plain, stripComments, stripCommentsFrom_eq_self ((unifyNewlines_respaced cs).symm.not_mem (by decide) hcs)]
  have hread : ∀ {cs ds : List Char}, Respaced cs ds →
      nest (tokens (normalize .levels (Text.lower cs))) = nest (tokens (normalize .levels (Text.lower ds))) := by
    intro cs ds h
    exact congrArg nest (tokensFrom_respaced (normalize_respaced (lowerFrom_respaced h false)) [])
  calc scan .levels s
      = nest (tokens (normalize .levels (Text.lower (unifyNewlines s.toList)))) := by rw [scan, hplain hs]
    _ = nest (tokens (normalize .levels (Text.lower s.toList))) := hread (unifyNewlines_respaced s.toList)
    _ = nest (tokens (normalize .levels (Text.lower t.toList))) := hread h
    _ = nest (tokens (normalize .levels (Text.lower (unifyNewlines t.toList)))) :=
      hread (unifyNewlines_respaced t.toList).symm
    _ = scan .levels t := by rw [scan, hplain (h.not_mem (by decide) hs)]

/-- Line ends inside the parentheses and the brackets that the rules take away. -/
theorem scan_respaced_lines : ';' ∉ "( (x [A -agent](q r)) )".toList ∧
    scan .levels "( (x [A -agent](q r)) )" = scan .levels "(\r\n\t(x\n[A\n-agent](q \t r))\n)" := by
  have hlines : Respaced "( (x [A -agent](q r)) )".toList "(\r\n\t(x\n[A\n-agent](q \t r))\n)".toList := by
    have hrun : ∀ {s cs ds : List Char}, s ≠ [] → s.all isBlank = true → Respaced cs ds →
        Respaced ([' '] ++ cs) (s ++ ds) := fun hs hall h => .run (by simp) hs (forall_mem_of_all (by decide))
          (List.all_eq_true.1 hall) h
    refine .append (.refl ['(']) (hrun (s := "\r\n\t".toList) (by decide) (by decide) ?_)
    refine .append (.refl "(x".toList) (hrun (s := ['\n']) (by decide) (by decide) ?_)
    refine .append (.refl "[A".toList) (hrun (s := ['\n']) (by decide) (by decide) ?_)
    refine .append (.refl "-agent](q".toList) (hrun (s := " \t ".toList) (by decide) (by decide) ?_)
    refine .append (.refl "r))".toList) (hrun (s := ['\n']) (by decide) (by decide) ?_)
    exact .refl [')']
  exact ⟨by decide, scan_respaced (by decide) hlines⟩

end Epistemic.Source
