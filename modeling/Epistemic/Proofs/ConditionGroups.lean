import Epistemic.Proofs.ClearedGuards
import Epistemic.Proofs.EffectNesting
/-!
# The parentheses of conditions

The conditions of a guard stand in a conjunction, each in parentheses of its own (`groupedText`).  They are printed with
a parenthesis that opens before the first condition of each sign, and one that closes behind every condition
(`guardText`).  So the text is the intended one, and leaves one list open, exactly if there is at most one condition of
each sign (`guard_grouped_iff`).
-/
namespace Epistemic
namespace Pdkb

/-- Texts with a sign before each and a parenthesis behind each. -/
def closedEach (sign : String) (texts : List String) : String := String.join (texts.map fun t => sign ++ t ++ ")")

/-- Texts with a sign before each, in parentheses of their own. -/
def enclosedEach (sign : String) (texts : List String) : String :=
  String.join (texts.map fun t => " (" ++ (sign ++ t ++ ")"))

/-- The conditions of one sign as they are printed. -/
def signedText (lead sign : String) (texts : List String) : String :=
  if texts.isEmpty then "" else lead ++ closedEach sign texts

/-- The conditions of a guard as they are printed. -/
def guardText (pos neg : List String) : String :=
  signedText " (when (and (" "" pos ++ signedText (if pos.isEmpty then " (when (and (" else " (") "!" neg ++
    if pos.isEmpty && neg.isEmpty then "" else ")"

/-- The conditions of a guard, each in parentheses of its own. -/
def groupedText (pos neg : List String) : String :=
  if pos.isEmpty && neg.isEmpty then "" else " (when (and" ++ (enclosedEach "" pos ++ enclosedEach "!" neg) ++ ")"

/-! ## What is printed -/

def HaveTexts (cs : List Tree) (texts : List String) : Prop := cs.map formula = texts.map .ok

theorem listed_eq (sign : String) {cs : List Tree} {texts : List String} (h : HaveTexts cs texts) :
    listed sign cs = (closedEach sign texts, none) := by
  induction cs generalizing texts with
  | nil =>
    obtain rfl : texts = [] := by simpa [HaveTexts, eq_comm] using h
    rfl
  | cons c cs ih =>
    obtain _ | ⟨t, texts⟩ := texts
    · simp [HaveTexts] at h
    · obtain ⟨ht, hrest⟩ := List.cons.inj h
      simp [listed, ht, ih hrest, closedEach]

theorem isEmpty_eq {cs : List Tree} {texts : List String} (h : HaveTexts cs texts) : texts.isEmpty = cs.isEmpty := by
  have hlength := congrArg List.length h
  rw [List.length_map, List.length_map] at hlength
  cases texts <;> cases cs <;> simp_all

variable {pos neg : List Tree} {ps ns : List String}

theorem conditions_eq {cs : List Tree} {texts : List String} (hfull : ∀ c ∈ cs, IsFull c) (h : HaveTexts cs texts)
    (positive first : Bool) : conditions positive first cs =
      ⟨signedText (if first then " (when (and (" else " (") (signText positive) texts, cs,
        .ok (first && !texts.isEmpty)⟩ := by
  cases cs with
  | nil =>
    obtain rfl : texts = [] := by simpa [HaveTexts, eq_comm] using h
    simp [conditions, tidy_of_areNone (.inr rfl), signedText]
  | cons c cs =>
    have hsome : texts.isEmpty = false := isEmpty_eq h
    simp [conditions, tidy_of_full hfull, listed_eq _ h, signedText, hsome]

/-- **The conditions of a guard are printed as its text**, and are left as they are. -/
theorem guard_eq (hpos : ∀ c ∈ pos, IsFull c) (hneg : ∀ c ∈ neg, IsFull c) (hps : HaveTexts pos ps)
    (hns : HaveTexts neg ns) :
    guard ⟨pos, neg⟩ = ⟨guardText ps ns, ⟨pos, neg⟩, .ok !(ps.isEmpty && ns.isEmpty)⟩ := by
  simp only [guard, printBoth, conditions_eq hpos hps, conditions_eq hneg hns, Except.map, guardText, signText]
  cases ps.isEmpty <;> cases ns.isEmpty <;> simp

theorem exists_haveTexts {cs : List Tree} (h : ∀ c ∈ cs, ∃ text, formula c = .ok text) :
    ∃ texts, HaveTexts cs texts := by
  induction cs with
  | nil => exact ⟨[], rfl⟩
  | cons c cs ih =>
    obtain ⟨t, ht⟩ := h c List.mem_cons_self
    obtain ⟨texts, htexts⟩ := ih fun d hd => h d (List.mem_cons_of_mem c hd)
    exact ⟨t :: texts, congrArg₂ List.cons ht htexts⟩

theorem listed_none (sign : String) {cs : List Tree} (h : (listed sign cs).2 = none) :
    ∀ c ∈ cs, ∃ text, formula c = .ok text := by
  induction cs with
  | nil => simp
  | cons c cs ih =>
    cases hc : formula c with
    | error e => simp [listed, hc] at h
    | ok text => exact List.forall_mem_cons.2 ⟨⟨text, hc⟩, ih (by simpa [listed, hc] using h)⟩

theorem conditions_done {positive first printed : Bool} {cs : List Tree} (hfull : ∀ c ∈ cs, IsFull c)
    (h : (conditions positive first cs).outcome = .ok printed) : ∀ c ∈ cs, ∃ text, formula c = .ok text := by
  cases cs with
  | nil => simp
  | cons c cs =>
    refine listed_none (signText positive) ?_
    rw [conditions, tidy_of_full hfull] at h
    rcases hlisted : listed (signText positive) (c :: cs) with ⟨text, _ | e⟩
    · rfl
    · simp [hlisted] at h

theorem guard_outcome (g : Guard) : (guard g).outcome = (printBoth conditions g).outcome := by
  simp only [guard]
  split <;> rfl

/-- **A guard is printed to its end exactly if each of its conditions can be written.** -/
theorem guard_done_iff (hpos : ∀ c ∈ pos, IsFull c) (hneg : ∀ c ∈ neg, IsFull c) :
    (∃ printed, (guard ⟨pos, neg⟩).outcome = .ok printed) ↔ ∀ c ∈ pos ++ neg, ∃ text, formula c = .ok text := by
  rw [List.forall_mem_append]
  constructor
  · rintro ⟨printed, h⟩
    rw [guard_outcome] at h
    cases hfirst : (conditions true true pos).outcome with
    | error e => simp [printBoth, hfirst] at h
    | ok first =>
      cases hsecond : (conditions false (!first) neg).outcome with
      | error e => simp [printBoth, hfirst, hsecond, Except.map] at h
      | ok second => exact ⟨conditions_done hpos hfirst, conditions_done hneg hsecond⟩
  · rintro ⟨hp, hn⟩
    obtain ⟨ps, hps⟩ := exists_haveTexts hp
    obtain ⟨ns, hns⟩ := exists_haveTexts hn
    exact ⟨_, congrArg PrintedGuard.outcome (guard_eq hpos hneg hps hns)⟩

/-! ## Lengths -/

theorem length_enclosedEach (sign : String) (texts : List String) :
    (enclosedEach sign texts).length = (closedEach sign texts).length + 2 * texts.length := by
  induction texts with
  | nil => rfl
  | cons t texts ih =>
    have hlead : " (".length = 2 := by decide
    simp only [enclosedEach, closedEach, List.map_cons, String.join_cons, String.length_append,
      List.length_cons] at ih ⊢
    omega

/-- Each condition but the first of its sign lacks the blank and the parenthesis before it. -/
theorem length_signedText {lead : String} {n : Nat} (hlead : lead.length = n + 2) (sign : String)
    (texts : List String) : (signedText lead sign texts).length + 2 * (texts.length - 1) =
      (enclosedEach sign texts).length + if texts.isEmpty then 0 else n := by
  cases texts with
  | nil => rfl
  | cons t texts =>
    rw [length_enclosedEach, signedText, List.isEmpty_cons, if_neg Bool.false_ne_true, if_neg Bool.false_ne_true,
      String.length_append, List.length_cons]
    omega

theorem length_groupedText (ps ns : List String) :
    (groupedText ps ns).length = (guardText ps ns).length + 2 * (ps.length - 1) + 2 * (ns.length - 1) := by
  have hfirst : " (when (and (".length = " (when (and".length + 2 := by decide
  have hlater : " (".length = 0 + 2 := by decide
  have hpos := length_signedText hfirst "" ps
  have hclose : ")".length = 1 := by decide
  cases ps with
  | nil =>
    -- what is denied comes first, and opens the list
    have hneg := length_signedText hfirst "!" ns
    have hnone : (signedText " (when (and (" "" []).length = 0 ∧ (enclosedEach "" []).length = 0 := ⟨rfl, rfl⟩
    cases ns with
    | nil => rfl
    | cons n ns =>
      simp only [groupedText, guardText, List.isEmpty_nil, List.isEmpty_cons, Bool.and_false, if_true, if_false,
        Bool.false_eq_true, String.length_append, List.length_nil] at hneg ⊢
      omega
  | cons p ps =>
    have hneg := length_signedText hlater "!" ns
    simp only [groupedText, guardText, List.isEmpty_cons, Bool.false_and, if_false, Bool.false_eq_true,
      String.length_append, ite_self] at hpos hneg ⊢
    omega

/-- At most one condition of a sign stands in its own parentheses. -/
theorem signedText_single {lead start : String} (hlead : lead = start ++ " (") (sign : String) {texts : List String}
    (h : texts.length ≤ 1) :
    signedText lead sign texts = (if texts.isEmpty then "" else start) ++ enclosedEach sign texts := by
  rcases texts with _ | ⟨t, _ | ⟨u, texts⟩⟩
  · rfl
  · simp [signedText, closedEach, enclosedEach, String.append_assoc, hlead]
  · simp at h

/-- **The text is that with all parentheses exactly if there is at most one condition of each sign.** -/
theorem guardText_eq_iff (ps ns : List String) :
    guardText ps ns = groupedText ps ns ↔ ps.length ≤ 1 ∧ ns.length ≤ 1 := by
  constructor
  · intro h
    -- the text is shorter by what it lacks
    have hlength := length_groupedText ps ns
    rw [h] at hlength
    omega
  · rintro ⟨hps, hns⟩
    have hfirst : " (when (and (" = " (when (and" ++ " (" := by decide
    have hlater : " (" = "" ++ " (" := by decide
    rw [guardText, groupedText, signedText_single hfirst "" hps]
    cases ps with
    | nil =>
      rw [List.isEmpty_nil, if_pos rfl, if_pos rfl, signedText_single hfirst "!" hns]
      cases ns with
      | nil => rfl
      | cons n ns => simp [enclosedEach]
    | cons p ps =>
      rw [List.isEmpty_cons, if_neg Bool.false_ne_true, if_neg Bool.false_ne_true, signedText_single hlater "!" hns,
        ite_self, String.empty_append]
      simp only [Bool.false_and, Bool.false_eq_true, if_false, String.append_assoc]

/-! ## Parentheses -/

def opens (s : String) : Nat := s.toList.count '('

def closes (s : String) : Nat := s.toList.count ')'

theorem opens_append (s t : String) : opens (s ++ t) = opens s + opens t := by
  rw [opens, String.toList_append, List.count_append]
  rfl

theorem closes_append (s t : String) : closes (s ++ t) = closes s + closes t := by
  rw [closes, String.toList_append, List.count_append]
  rfl

def IsEven (s : String) : Prop := opens s = closes s

theorem Level.isEven {s : String} (h : Level s) : IsEven s := by
  have hcount := Source.depthFrom_some_count s.toList 0 0 (h 0)
  rwa [Nat.zero_add, Nat.zero_add] at hcount

/-- A parenthesis too many closes behind every condition. -/
theorem closes_closedEach (sign : String) (hsign : IsEven sign) {texts : List String} (h : ∀ t ∈ texts, IsEven t) :
    closes (closedEach sign texts) = opens (closedEach sign texts) + texts.length := by
  induction texts with
  | nil => rfl
  | cons t texts ih =>
    obtain ⟨ht, hrest⟩ := List.forall_mem_cons.1 h
    have hclose : opens ")" = 0 ∧ closes ")" = 1 := by decide
    have ih := ih hrest
    simp only [closedEach, List.map_cons, String.join_cons, opens_append, closes_append, List.length_cons] at ih ⊢
    unfold IsEven at hsign ht
    omega

/-- **The text of conditions leaves one list open, less one for each condition but the first of its sign.** -/
theorem opens_guardText {ps ns : List String} (hsome : ¬ (ps = [] ∧ ns = [])) (hps : ∀ t ∈ ps, IsEven t)
    (hns : ∀ t ∈ ns, IsEven t) :
    opens (guardText ps ns) + (ps.length - 1) + (ns.length - 1) = closes (guardText ps ns) + 1 := by
  have hp := closes_closedEach "" rfl hps
  have hn := closes_closedEach "!" rfl hns
  have hfirst : opens " (when (and (" = 3 ∧ closes " (when (and (" = 0 := by decide
  have hlater : opens " (" = 1 ∧ closes " (" = 0 := by decide
  have hclose : opens ")" = 0 ∧ closes ")" = 1 := by decide
  have hempty : opens "" = 0 ∧ closes "" = 0 := by decide
  cases ps with
  | nil =>
    cases ns with
    | nil => simp at hsome
    | cons n ns =>
      simp [guardText, signedText, opens_append, closes_append] at hn ⊢
      omega
  | cons p ps =>
    cases ns with
    | nil =>
      simp [guardText, signedText, opens_append, closes_append] at hp ⊢
      omega
    | cons n ns =>
      simp [guardText, signedText, opens_append, closes_append] at hp hn ⊢
      omega

/-! ## The main result -/

theorem HaveTexts.length_eq {cs : List Tree} {texts : List String} (h : HaveTexts cs texts) :
    texts.length = cs.length := by
  simpa using (congrArg List.length h).symm

/-- **When conditions stand in parentheses of their own.**  Let the conditions of a guard be lists of words or lists,
none empty and without empty words.  They are printed to the end exactly if each of them can be written, as each can be
in which every operator is told, and then they are left as they are.  Nothing is printed without conditions.  Otherwise
the conditions have parentheses of their own exactly if there is at most one of each sign, and exactly then one
parenthesis more opens than closes. -/
theorem guard_grouped_iff (pos neg : List Tree) (hfull : ∀ c ∈ pos ++ neg, IsFull c) :
    ((∃ printed, (guard ⟨pos, neg⟩).outcome = .ok printed) ↔ ∀ c ∈ pos ++ neg, ∃ text, formula c = .ok text) ∧
    (∀ c ∈ pos ++ neg, IsTold c.items → ∃ text, formula c = .ok text ∧ IsEven text) ∧
    ∀ ps ns, HaveTexts pos ps → HaveTexts neg ns →
      guard ⟨pos, neg⟩ = ⟨guardText ps ns, ⟨pos, neg⟩, .ok !(pos.isEmpty && neg.isEmpty)⟩ ∧
      (pos = [] → neg = [] → guardText ps ns = "") ∧
      (guardText ps ns = groupedText ps ns ↔ pos.length ≤ 1 ∧ neg.length ≤ 1) ∧
      ((∀ t ∈ ps ++ ns, IsEven t) → ¬ (pos = [] ∧ neg = []) →
        (opens (guardText ps ns) = closes (guardText ps ns) + 1 ↔ pos.length ≤ 1 ∧ neg.length ≤ 1)) := by
  obtain ⟨hpos, hneg⟩ := List.forall_mem_append.1 hfull
  refine ⟨guard_done_iff hpos hneg, fun c _ htold => ?_, fun ps ns hps hns => ?_⟩
  · obtain ⟨text, htext, hlevel⟩ := htold.formula_ok
    exact ⟨text, htext, hlevel.isEven⟩
  · rw [← hps.length_eq, ← hns.length_eq]
    refine ⟨?_, ?_, guardText_eq_iff ps ns, fun heven hsome => ?_⟩
    · rw [guard_eq hpos hneg hps hns, isEmpty_eq hps, isEmpty_eq hns]
    · rintro rfl rfl
      rw [List.eq_nil_of_length_eq_zero hps.length_eq, List.eq_nil_of_length_eq_zero hns.length_eq]
      rfl
    · obtain ⟨hpsEven, hnsEven⟩ := List.forall_mem_append.1 heven
      have htexts : ¬ (ps = [] ∧ ns = []) := by
        rintro ⟨rfl, rfl⟩
        exact hsome ⟨List.eq_nil_of_length_eq_zero hps.length_eq.symm, List.eq_nil_of_length_eq_zero hns.length_eq.symm⟩
      have hopens := opens_guardText htexts hpsEven hnsEven
      omega

/-- Two conditions that hold and one that does not: the second has no parenthesis before it. -/
theorem guard_grouped_iff_three :
    guard ⟨[.list [.word "p"], .list [.word "q"]], [.list [.word "B(a,", .word "r"]]⟩ =
      ⟨" (when (and (p)q) (![a](r)))", ⟨[.list [.word "p"], .list [.word "q"]], [.list [.word "B(a,", .word "r"]]⟩,
        .ok true⟩ ∧
    groupedText ["p", "q"] ["[a](r)"] = " (when (and (p) (q) (![a](r)))" ∧
    guardText ["p", "q"] ["[a](r)"] ≠ groupedText ["p", "q"] ["[a](r)"] := by
  have hfull : ∀ c ∈ [Tree.list [.word "p"], .list [.word "q"]] ++ [.list [.word "B(a,", .word "r"]], IsFull c := by
    intro c hc
    simp only [List.cons_append, List.nil_append, List.mem_cons, List.not_mem_nil, or_false] at hc
    rcases hc with rfl | rfl | rfl <;> exact ⟨_, rfl, by simp, by decide⟩
  obtain ⟨_, _, htexts⟩ := guard_grouped_iff _ _ hfull
  obtain ⟨hguard, _, hgrouped, _⟩ := htexts ["p", "q"] ["[a](r)"] rfl rfl
  refine ⟨hguard.trans ?_, by decide, fun h => ?_⟩
  · have htext : guardText ["p", "q"] ["[a](r)"] = " (when (and (p)q) (![a](r)))" := by decide
    rw [htext]
    rfl
  · exact absurd (hgrouped.1 h).1 (by decide)

end Pdkb
end Epistemic
