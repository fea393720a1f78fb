import Epistemic.MAp.Document
import Epistemic.Pdkb.Document
import Epistemic.Proofs.Writing
import Epistemic.Task.Problem
/-!
# Goals and their signs

Both printers write the goals that are to hold and then those that are not to hold, and write them alike.  A section of
goals is what it would be with signs exactly if there is no goal of the second kind, and a goal can be exchanged for
its negation without a trace exactly if its line can be moved behind those of the goals between.
-/
namespace Epistemic

open Draft (write)

/-- The two ways to write a task. -/
inductive Printer where
  | mAp
  | pdkb

namespace Printer

/-- A formula, as the printer writes it. -/
def formula : Printer → Tree → Except Fault String
  | mAp => MAp.formula
  | pdkb => Pdkb.formula

/-- The sign that the printer writes before a condition. -/
def signText : Printer → (positive : Bool) → String
  | mAp => MAp.signText
  | pdkb => Pdkb.signText

/-- One goal, as the printer writes it. -/
def goal : Printer → Tree → Work Draft Unit
  | mAp => MAp.goal
  | pdkb => Pdkb.goal

/-- The section of goals, as the printer writes it. -/
def goalSection : Printer → Problem → Work Draft Unit
  | mAp => MAp.goalSection
  | pdkb => Pdkb.goalSection

/-- What stands before the goals. -/
def goalHead : Printer → String
  | mAp => "%%%%%%%%%%%%%%%%%%%%%%%%%%    GOALS   %%%%%%%%%%%%%%%%%%%%%%%%%%\n" ++
      "%The goals of the plan. Each goal is presented separately to ease the reading\n\n"
  | pdkb => "\n\t(:goal "

/-- What stands behind the goals. -/
def goalFoot : Printer → String
  | mAp => "\n" ++ MAp.rule
  | pdkb => "\n\t)\n)"

/-- The line of a goal. -/
def goalLine : Printer → String → String
  | mAp, text => "goal " ++ text ++ ";\n"
  | pdkb, text => "\n\t  " ++ text

/-- The line of a goal under its sign. -/
def signedLine (pr : Printer) (positive : Bool) (t : Tree) : Except Fault String :=
  (pr.formula t).map fun text => pr.goalLine (pr.signText positive ++ text)

/-- The section of goals with every formula under its sign. -/
def signedGoals (pr : Printer) (p : Problem) : Except Fault String :=
  followed (.ok pr.goalHead) (followed (joined (pr.signedLine true) p.positiveGoals)
    (followed (joined (pr.signedLine false) p.negativeGoals) (.ok pr.goalFoot)))

/-! ## Lines -/

theorem goalLine_length (pr : Printer) (text : String) :
    (pr.goalLine (pr.signText false ++ text)).length = (pr.goalLine (pr.signText true ++ text)).length + 1 := by
  cases pr with
  | mAp =>
    have hsign : "-".length = "".length + 1 := by decide
    simp only [goalLine, signText, MAp.signText, Bool.false_eq_true, if_false, if_true, String.length_append, hsign]
    omega
  | pdkb =>
    have hsign : "!".length = "".length + 1 := by decide
    simp only [goalLine, signText, Pdkb.signText, Bool.false_eq_true, if_false, if_true, String.length_append, hsign]
    omega

theorem signedLine_eq_ok {pr : Printer} {positive : Bool} {t : Tree} {line : String} :
    pr.signedLine positive t = .ok line ↔
      ∃ x, pr.formula t = .ok x ∧ line = pr.goalLine (pr.signText positive ++ x) := by
  rw [signedLine]
  cases pr.formula t <;> simp [Except.map, eq_comm]

/-- **Each sign is one character more.** -/
theorem joined_signed {pr : Printer} : ∀ {ts : List Tree} {text : String}, joined (pr.signedLine true) ts = .ok text →
    ∃ signed, joined (pr.signedLine false) ts = .ok signed ∧ signed.length = text.length + ts.length
  | [], text, h => by
    cases h
    exact ⟨"", rfl, rfl⟩
  | t :: ts, text, h => by
    obtain ⟨line, rest, hline, hrest, rfl⟩ := followed_eq_ok.1 h
    obtain ⟨signed, hsigned, hlength⟩ := joined_signed hrest
    obtain ⟨x, hx, rfl⟩ := signedLine_eq_ok.1 hline
    refine ⟨_, followed_eq_ok.2 ⟨_, signed, signedLine_eq_ok.2 ⟨x, hx, rfl⟩, hsigned, rfl⟩, ?_⟩
    rw [String.length_append, String.length_append, hlength, goalLine_length, List.length_cons]
    omega

/-! ## Writing -/

theorem writes_goal (pr : Printer) (t : Tree) : Writes (pr.goal t) (pr.signedLine true t) := by
  cases pr with
  | mAp =>
    have hline : mAp.signedLine true t =
        followed (.ok "goal ") ((MAp.formula t).map (· ++ ";\n")) := by
      simp only [signedLine, formula, followed]
      cases MAp.formula t with
      | error e => rfl
      | ok x =>
        simp only [Except.map, Except.bind, goalLine, signText, MAp.signText, if_true, String.empty_append,
          String.append_assoc]
    rw [hline]
    exact (writes_write _).bind (writes_ofExcept_bind fun x => writes_write _)
  | pdkb =>
    have hline : pdkb.signedLine true t = (Pdkb.formula t).map ("\n\t  " ++ ·) := by
      simp only [signedLine, formula, goalLine, signText, Pdkb.signText, if_true, String.empty_append]
    rw [hline]
    exact writes_ofExcept_bind fun x => writes_write _

/-- **The goals of both kinds are written without a sign.** -/
theorem writes_goalSection (pr : Printer) (p : Problem) : Writes (pr.goalSection p)
    (followed (.ok pr.goalHead) (followed (joined (pr.signedLine true) p.positiveGoals)
      (followed (joined (pr.signedLine true) p.negativeGoals) (.ok pr.goalFoot)))) := by
  have h := (writes_write pr.goalHead).bind ((Writes.each pr.writes_goal p.positiveGoals).bind
    ((Writes.each pr.writes_goal p.negativeGoals).bind (writes_write pr.goalFoot)))
  cases pr <;> exact h

theorem goalSection_ok_iff {pr : Printer} {p : Problem} {draft done : Draft} :
    (pr.goalSection p).perform draft = (.ok (), done) ↔
      ∃ text, joined (pr.signedLine true) (p.positiveGoals ++ p.negativeGoals) = .ok text ∧
        done = { draft with text := draft.text ++ (pr.goalHead ++ (text ++ pr.goalFoot)) } := by
  rw [(pr.writes_goalSection p).perform_ok]
  simp only [followed_eq_ok, joined_append_eq_ok]
  constructor
  · rintro ⟨s, ⟨head, rest, hhead, ⟨a, rest', ha, ⟨b, foot, hb, hfoot, rfl⟩, rfl⟩, rfl⟩, rfl⟩
    cases hhead
    cases hfoot
    exact ⟨a ++ b, ⟨a, b, ha, hb, rfl⟩, by rw [String.append_assoc]⟩
  · rintro ⟨text, ⟨a, b, ha, hb, rfl⟩, rfl⟩
    exact ⟨_, ⟨_, _, rfl, ⟨a, _, ha, ⟨b, _, hb, rfl, rfl⟩, rfl⟩, rfl⟩, by simp only [String.append_assoc]⟩

/-- **A section is written as its signed form exactly if no goal is negative.** -/
theorem goalSection_signed_iff {pr : Printer} {p : Problem} {draft done : Draft}
    (h : (pr.goalSection p).perform draft = (.ok (), done)) :
    ∃ signed, pr.signedGoals p = .ok signed ∧ (done.text = draft.text ++ signed ↔ p.negativeGoals = []) := by
  obtain ⟨text, htext, rfl⟩ := goalSection_ok_iff.1 h
  obtain ⟨a, b, ha, hb, rfl⟩ := joined_append_eq_ok.1 htext
  obtain ⟨c, hc, hlength⟩ := joined_signed hb
  refine ⟨pr.goalHead ++ (a ++ (c ++ pr.goalFoot)), ?_, ?_⟩
  · simp only [signedGoals, followed_eq_ok]
    exact ⟨_, _, rfl, ⟨a, _, ha, ⟨c, _, hc, rfl, rfl⟩, rfl⟩, rfl⟩
  · constructor
    · intro heq
      have hlen := congrArg String.length heq
      simp only [String.length_append] at hlen
      exact List.eq_nil_of_length_eq_zero (by omega)
    · intro hnil
      rw [hnil] at hb hc
      cases hb
      cases hc
      simp only [String.append_assoc]

/-- **A goal moved from the first kind to the second leaves the section as it is exactly if its line can be moved**
behind those of the goals between. -/
theorem goalSection_moved_iff {pr : Printer} {p q : Problem} {g : Tree} {pos₁ pos₂ neg₁ neg₂ : List Tree}
    (hpp : p.positiveGoals = pos₁ ++ g :: pos₂) (hpn : p.negativeGoals = neg₁ ++ neg₂)
    (hqp : q.positiveGoals = pos₁ ++ pos₂) (hqn : q.negativeGoals = neg₁ ++ g :: neg₂) {draft done : Draft}
    (h : (pr.goalSection p).perform draft = (.ok (), done)) :
    ∃ other, (pr.goalSection q).perform draft = (.ok (), other) ∧
      (done.text = other.text ↔ joined (pr.signedLine true) (g :: (pos₂ ++ neg₁)) =
        joined (pr.signedLine true) (pos₂ ++ neg₁ ++ [g])) := by
  obtain ⟨text, htext, rfl⟩ := goalSection_ok_iff.1 h
  rw [hpp, hpn] at htext
  obtain ⟨_, _, hpositive, hnegative, rfl⟩ := joined_append_eq_ok.1 htext
  obtain ⟨a, _, ha, hrest, rfl⟩ := joined_append_eq_ok.1 hpositive
  obtain ⟨x, c, hx, hc, rfl⟩ := followed_eq_ok.1 hrest
  obtain ⟨d, e, hd, he, rfl⟩ := joined_append_eq_ok.1 hnegative
  have hbetween : joined (pr.signedLine true) (pos₂ ++ neg₁) = .ok (c ++ d) :=
    joined_append_eq_ok.2 ⟨c, d, hc, hd, rfl⟩
  have hfirst : joined (pr.signedLine true) (g :: (pos₂ ++ neg₁)) = .ok (x ++ (c ++ d)) :=
    followed_eq_ok.2 ⟨x, _, hx, hbetween, rfl⟩
  have hlast : joined (pr.signedLine true) (pos₂ ++ neg₁ ++ [g]) = .ok (c ++ d ++ x) :=
    joined_append_eq_ok.2 ⟨_, x, hbetween, followed_eq_ok.2 ⟨x, "", hx, rfl, by rw [String.append_empty]⟩, rfl⟩
  have hother : joined (pr.signedLine true) (q.positiveGoals ++ q.negativeGoals) = .ok (a ++ c ++ (d ++ (x ++ e))) := by
    rw [hqp, hqn]
    refine joined_append_eq_ok.2 ⟨_, _, joined_append_eq_ok.2 ⟨a, c, ha, hc, rfl⟩, ?_, rfl⟩
    exact joined_append_eq_ok.2 ⟨d, x ++ e, hd, followed_eq_ok.2 ⟨x, e, hx, he, rfl⟩, rfl⟩
  refine ⟨_, goalSection_ok_iff.2 ⟨_, hother, rfl⟩, ?_⟩
  have hshape : a ++ (x ++ c) ++ (d ++ e) = a ++ (x ++ (c ++ d) ++ e) ∧
      a ++ c ++ (d ++ (x ++ e)) = a ++ (c ++ d ++ x ++ e) := by simp only [String.append_assoc, and_self]
  simp only [hshape, hfirst, hlast, Except.ok.injEq, String.append_right_inj, String.append_left_inj]

end Printer

/-! ## Reading -/

namespace Literals

theorem add_from (place : String) (ls : Literals) (t : Tree) : ls.add place t =
    (({} : Literals).add place t).map fun d => ⟨ls.positive ++ d.positive, ls.negative ++ d.negative⟩ := by
  unfold add
  cases normalForm t with
  | error e => rfl
  | ok formula =>
    simp only
    cases formula.items with
    | nil => rfl
    | cons head rest =>
      simp only
      split
      · rcases rest with _ | ⟨atom, _ | ⟨_, _⟩⟩
        · rfl
        · simp [Except.map]
        · rfl
      · simp [Except.map]

/-- **Literals are added to those before them.** -/
theorem addAll_from (place : String) : ∀ (ts : List Tree) (ls : Literals), addAll place ts ls =
    (⟨ls.positive ++ (addAll place ts {}).1.positive, ls.negative ++ (addAll place ts {}).1.negative⟩,
      (addAll place ts {}).2)
  | [], ls => by simp [addAll]
  | t :: ts, ls => by
    rw [addAll, addAll, add_from place ls t]
    cases ({} : Literals).add place t with
    | error e => simp [Except.map]
    | ok d =>
      simp only [Except.map]
      rw [addAll_from place ts ⟨ls.positive ++ d.positive, ls.negative ++ d.negative⟩, addAll_from place ts d]
      simp only [List.append_assoc]

/-- **A literal among others** is filed behind those before it, and those behind it are filed behind it. -/
theorem addAll_insert {place : String} {t : Tree} {positive negative : List Tree}
    (ht : ({} : Literals).add place t = .ok ⟨positive, negative⟩) (before after : List Tree) :
    (addAll place (before ++ t :: after) {}).2 = (addAll place before {}).2.or (addAll place after {}).2 ∧
    ((addAll place before {}).2 = none → (addAll place (before ++ t :: after) {}).1 =
      ⟨(addAll place before {}).1.positive ++ (positive ++ (addAll place after {}).1.positive),
        (addAll place before {}).1.negative ++ (negative ++ (addAll place after {}).1.negative)⟩) := by
  induction before with
  | nil =>
    simp only [List.nil_append, addAll, ht]
    rw [addAll_from]
    simp
  | cons s before ih =>
    rw [List.cons_append, addAll, addAll]
    cases ({} : Literals).add place s with
    | error e => simp
    | ok d =>
      obtain ⟨hfault, hliterals⟩ := ih
      simp only
      rw [addAll_from place (before ++ t :: after) d, addAll_from place before d]
      refine ⟨hfault, fun h => ?_⟩
      rw [hliterals h]
      simp only [List.append_assoc]

end Literals

namespace Problem

/-- A goal that is a predicate with its arguments, neither negated nor headed by an operator. -/
def IsAtom (t : Tree) : Prop :=
  ∃ name args, t = .list (.word name :: args) ∧ name ≠ "not" ∧ Literals.isOperator (.word name) = false

/-- The negation of a goal. -/
def negation (t : Tree) : Tree := .list [.word "not", t]

theorem add_atom {place : String} {t : Tree} (h : IsAtom t) : ({} : Literals).add place t = .ok ⟨[t], []⟩ := by
  obtain ⟨name, args, rfl, hnot, hop⟩ := h
  have hform : Literals.normalForm (.list (.word name :: args)) = .ok (.list (.word name :: args)) := by
    simp [Literals.normalForm, Tree.items, hop]
  have hword : (Tree.word name).isWord "not" = false := by simpa [Tree.isWord] using hnot
  simp [Literals.add, hform, Tree.items, hword]

theorem add_negation {place : String} (t : Tree) : ({} : Literals).add place (negation t) = .ok ⟨[], [t]⟩ := by
  have hop : Literals.isOperator (.word "not") = false := by decide
  simp [Literals.add, Literals.normalForm, negation, Tree.items, hop, Tree.isWord]

/-- A section of goals. -/
def goals (ts : List Tree) : Tree := .list (.word ":goal" :: ts)

theorem readSection_goals (task : Task) (problem : Problem) (ts : List Tree) :
    (readSection task problem (goals ts)).fault = (Literals.addAll "goals" ts {}).2 ∧
    ((Literals.addAll "goals" ts {}).2 = none → (readSection task problem (goals ts)).problem = { problem with
      positiveGoals := (Literals.addAll "goals" ts {}).1.positive
      negativeGoals := (Literals.addAll "goals" ts {}).1.negative }) := by
  have hread : readSection task problem (goals ts) = readLiterals "goals"
      (fun ls => { problem with positiveGoals := ls.positive, negativeGoals := ls.negative }) task problem ts := by
    simp [readSection, goals, readBehind, Tree.isWord]
  rw [hread]
  simp only [readLiterals, Literals.split, Tree.isWord]
  cases (Literals.addAll "goals" ts {}).2 <;> simp

/-- **A goal among others is filed with those to hold, and its negation with those not to hold.** -/
theorem readSection_atom {t : Tree} {positive negative : List Tree}
    (ht : ({} : Literals).add "goals" t = .ok ⟨positive, negative⟩) (task : Task) (problem : Problem)
    (before after : List Tree) :
    (readSection task problem (goals (before ++ t :: after))).fault =
      (Literals.addAll "goals" before {}).2.or (Literals.addAll "goals" after {}).2 ∧
    ((readSection task problem (goals (before ++ t :: after))).fault = none →
      (readSection task problem (goals (before ++ t :: after))).problem = { problem with
        positiveGoals := (Literals.addAll "goals" before {}).1.positive ++
          (positive ++ (Literals.addAll "goals" after {}).1.positive)
        negativeGoals := (Literals.addAll "goals" before {}).1.negative ++
          (negative ++ (Literals.addAll "goals" after {}).1.negative) }) := by
  obtain ⟨hfault, hproblem⟩ := readSection_goals task problem (before ++ t :: after)
  obtain ⟨hsome, hliterals⟩ := Literals.addAll_insert ht before after
  refine ⟨hfault.trans hsome, fun h => ?_⟩
  rw [hfault] at h
  rw [hproblem h, hliterals (Option.or_eq_none_iff.1 (hsome ▸ h)).1]

/-- The goals that are written between a goal and its negation: those to hold that are read behind it, and those not to
hold that are read before it. -/
def goalsBetween (before after : List Tree) : List Tree :=
  (Literals.addAll "goals" after {}).1.positive ++ (Literals.addAll "goals" before {}).1.negative

end Problem

namespace Printer

open Problem (goals negation goalsBetween readSection)

/-- **The signs of goals are lost**: a section is written as its signed form exactly if no goal is negative, and it is
the same for a goal as for its negation exactly if the line of the goal can be moved behind those of the goals between,
as when there are none. -/
theorem goalSection_polarity (pr : Printer) :
    (∀ (p : Problem) (draft done : Draft), (pr.goalSection p).perform draft = (.ok (), done) →
      ∃ signed, pr.signedGoals p = .ok signed ∧ (done.text = draft.text ++ signed ↔ p.negativeGoals = [])) ∧
    ∀ (task : Task) (problem : Problem) (before after : List Tree) (g : Tree), Problem.IsAtom g →
      (readSection task problem (goals (before ++ g :: after))).fault = none →
      (readSection task problem (goals (before ++ negation g :: after))).fault = none ∧
      ∀ draft done : Draft,
        (pr.goalSection (readSection task problem (goals (before ++ g :: after))).problem).perform draft =
          (.ok (), done) →
        ∃ other,
          (pr.goalSection (readSection task problem (goals (before ++ negation g :: after))).problem).perform draft =
            (.ok (), other) ∧
          (done.text = other.text ↔ joined (pr.signedLine true) (g :: goalsBetween before after) =
            joined (pr.signedLine true) (goalsBetween before after ++ [g])) := by
  refine ⟨fun p draft done h => goalSection_signed_iff h, fun task problem before after g hg hread => ?_⟩
  obtain ⟨hfault, hproblem⟩ := Problem.readSection_atom (Problem.add_atom hg) task problem before after
  obtain ⟨hfault', hproblem'⟩ := Problem.readSection_atom (Problem.add_negation g) task problem before after
  have hread' := hfault'.trans (hfault.symm.trans hread)
  refine ⟨hread', fun draft done hdone => ?_⟩
  rw [hproblem hread] at hdone
  rw [hproblem' hread']
  exact goalSection_moved_iff rfl rfl rfl rfl hdone

theorem goalSection_polarity_atom :
    (∃ done signed, (mAp.goalSection { negativeGoals := [.list [.word "p"]] }).perform {} = (.ok (), done) ∧
      mAp.signedGoals { negativeGoals := [.list [.word "p"]] } = .ok signed ∧ done.text ≠ "" ++ signed) ∧
    Problem.IsAtom (.list [.word "p"]) ∧
    (readSection { dialect := .levels } {} (goals [.list [.word "p"]])).fault = none ∧
    ∃ done other,
      (pdkb.goalSection (readSection { dialect := .levels } {} (goals [.list [.word "p"]])).problem).perform {} =
        (.ok (), done) ∧
      (pdkb.goalSection
        (readSection { dialect := .levels } {} (goals [negation (.list [.word "p"])])).problem).perform {} =
        (.ok (), other) ∧
      done.text = other.text := by
  have hatom : Problem.IsAtom (.list [.word "p"]) := ⟨"p", [], rfl, by decide, by decide⟩
  refine ⟨?_, hatom, rfl, ?_⟩
  · have hdone : (mAp.goalSection { negativeGoals := [.list [.word "p"]] }).perform {} = (.ok (), _) :=
      goalSection_ok_iff.2 ⟨_, rfl, rfl⟩
    obtain ⟨signed, hsigned, hiff⟩ := (goalSection_polarity mAp).1 _ _ _ hdone
    exact ⟨_, signed, hdone, hsigned, fun h => absurd (hiff.1 h) (by simp)⟩
  · have hdone : (pdkb.goalSection
        (readSection { dialect := .levels } {} (goals [.list [.word "p"]])).problem).perform {} = (.ok (), _) :=
      goalSection_ok_iff.2 ⟨_, rfl, rfl⟩
    obtain ⟨-, hother⟩ := (goalSection_polarity pdkb).2 { dialect := .levels } {} [] [] _ hatom rfl
    obtain ⟨other, hperform, hiff⟩ := hother _ _ hdone
    exact ⟨_, other, hdone, hperform, hiff.2 rfl⟩

end Printer
end Epistemic
