import Epistemic.Proofs.Documents
import Epistemic.Proofs.Words
/-!
# Fluents that actions use

A fluent that a ground action uses is declared if it is a fluent of the task, or if it was recorded.  Names are recorded
while actions with parameters are filled in, unless a hyphen stands in them.  An action without parameters is taken as
it is, and nothing is recorded for it.
-/
namespace Epistemic

open Work (perform_bind_eq_ok perform_ofExcept_bind_eq_ok)

/-! ## Names that are recorded -/

/-- A name without an operator is that of a fluent if no hyphen stands in it. -/
theorem isFluentName_iff {n : String} (h : Literals.isOperator (.word n) = false) :
    isFluentName n = true ↔ '-' ∉ n.toList := by
  obtain ⟨hbelief, hcommon⟩ := Bool.or_eq_false_iff.1 h
  have hhyphen : (Tree.word n).mentions "-" = true ↔ '-' ∈ n.toList := Text.occurs_singleton '-' n.toList
  simp [isFluentName, hbelief, hcommon, ← hhyphen]

theorem mem_of_recordFluent {items : List Tree} {l l' : Fluents} {n : String}
    (h : (recordFluent items).perform l = (.ok (), l')) (hformula : MAp.formula (.list items) = .ok n)
    (hname : isFluentName n = true) : n ∈ l' := by
  obtain ⟨text, htext, h⟩ := perform_ofExcept_bind_eq_ok.1 h
  rw [hformula] at htext
  cases htext
  rw [if_pos hname] at h
  cases h
  exact List.mem_cons_self

/-- **A formula that was filled in is recorded under its name**, if it is that of a fluent. -/
theorem FilledIn.recorded {σ : Assignment} {known : Fluents} {before after : Tree} (h : FilledIn σ known before after)
    {n : String} (hformula : MAp.formula after = .ok n) (hname : isFluentName n = true) : n ∈ known := by
  obtain ⟨l, l', hrun, hsub⟩ := h
  rw [substitute, substituteWithin] at hrun
  obtain ⟨items, l₁, _, hrun⟩ := perform_bind_eq_ok.1 hrun
  obtain ⟨items, _, hrun⟩ := perform_ofExcept_bind_eq_ok.1 hrun
  obtain ⟨items, _, hrun⟩ := perform_ofExcept_bind_eq_ok.1 hrun
  obtain ⟨_, l₂, hrecord, hrun⟩ := perform_bind_eq_ok.1 hrun
  cases hrun
  exact hsub (mem_of_recordFluent hrecord hformula hname)

theorem Action.formulas_underGroundName {a b : Action} (h : a.underGroundName = .ok b) : b.formulas = a.formulas := by
  unfold Action.underGroundName at h
  cases hname : a.groundName with
  | error e => rw [hname] at h; cases h
  | ok name =>
    rw [hname] at h
    cases h
    rfl

namespace MAp

theorem from_groundTask {t : Task} {d : Domain} {p : Problem} {g : Grounding} (hd : t.domain = some d)
    (hp : t.problem = some p) (hrun : (groundTask t d).perform {} = (.ok (), g)) :
    g.From Action.underGroundName d.objects d.types d.groups d.actions := by
  have hfrom := @from_groundActions Action.underGroundName d
  obtain ⟨_, g₁, hground, hrun⟩ := perform_bind_eq_ok.1 hrun
  rw [hground] at hfrom
  have hgathers := gathers_recording (gathers_addTask hd hp) g₁ g hrun
  rw [Grounding.perform_recording] at hrun
  obtain ⟨_, rfl⟩ := Prod.mk.inj hrun
  exact hfrom.mono fun n hn => (hgathers n).2 (.inr hn)

/-- What the fluents of a ground action must be, beside fluents of the task, to be declared: names without a hyphen if
the action was filled in, and names that were recorded for other actions if it stands for itself. -/
def IsRecordedFor (d : Domain) (G : GroundAction) (n : String) : Prop :=
  match G.place with
  | none => '-' ∉ n.toList
  | some _ => ∃ a ∈ d.actions, a.parameters ≠ [] ∧ n ∈ recordedFluents d a

theorem mem_declaredFluents_of_used {t : Task} {d : Domain} {p : Problem} {g : Grounding} (hd : t.domain = some d)
    (hp : t.problem = some p) (hrun : (groundTask t d).perform {} = (.ok (), g)) {G : GroundAction} (hG : G ∈ g.actions)
    {c : Tree} (hc : c ∈ G.action.formulas) {n : String} (hnames : Names c n) (hne : n ≠ "") :
    n ∈ declaredFluents t d ↔ IsTaskFluent d p n ∨ IsRecordedFor d G n := by
  have hdeclared := mem_declaredFluents hd hp hrun (n := n)
  obtain ⟨a, ha, hyields⟩ := from_groundTask hd hp hrun G hG
  cases hyields with
  | itself place hparameters hdone => simpa [hne, IsRecordedFor] using hdeclared
  | @filled ranges choice ground done l l' hparameters hranges hchoice hground hknown hdone =>
    simp only [IsRecordedFor]
    constructor
    · intro hn
      refine (hdeclared.1 hn).2.imp_right fun ⟨b, _, _, hrecorded⟩ => ?_
      exact (isFluentName_iff hnames.2).1 (isFluentName_of_recorded hrecorded)
    · rintro (htask | hhyphen)
      · exact hdeclared.2 ⟨hne, .inl htask⟩
      · rw [Action.formulas_underGroundName hdone] at hc
        obtain ⟨c₀, -, hfilled⟩ := exists_of_mem_right (Action.forall₂_groundWith hground) hc
        have hn := hknown (hfilled.recorded hnames.1 ((isFluentName_iff hnames.2).2 hhyphen))
        rw [declaredFluents, List.mem_filter, mem_sorted, hrun]
        exact ⟨hn, by simpa using hne⟩

end MAp

namespace Session

/-- **Which fluents of the actions are declared.**  When a task is written, the name of a formula of a ground action
stands among the declared fluents exactly if it is a fluent of the task or was recorded: for an action that was filled
in if no hyphen stands in it, and for an action without parameters if it was recorded for another. -/
theorem writeMAp_declares_used_iff {folder : String} {s s' : Session}
    (hrun : (writeMAp folder).perform s = (.ok (), s')) :
    ∃ d p text rest, s.task.domain = some d ∧ s.task.problem = some p ∧
      s'.files.get? (mApPath folder s.task.dialect d p) = some text ∧
      text = MAp.title ++ MAp.fluentSection (MAp.declaredFluents s.task d) ++ rest ∧
      ∀ G ∈ ((MAp.groundTask s.task d).perform {}).2.actions, ∀ c ∈ G.action.formulas, ∀ n, MAp.Names c n → n ≠ "" →
        (n ∈ MAp.declaredFluents s.task d ↔ MAp.IsTaskFluent d p n ∨ MAp.IsRecordedFor d G n) := by
  obtain ⟨d, p, actions, draft, hd, hp, hdocument, hfile⟩ := writeMAp_ok hrun
  obtain ⟨g, facts, between, trues, rest, hground, -, htext⟩ := MAp.document_ok hdocument
  generalize (MAp.declaredFluents s.task d).filter (!facts.contains ·) = falses at htext
  refine ⟨d, p, draft.text, between ++ MAp.truthHead ++ trues ++ MAp.falseLine falses ++ rest, hd, hp, hfile, ?_,
    fun G hG c hc n hnames hne => ?_⟩
  · rw [htext, String.empty_append]
    simp only [String.append_assoc]
  · rw [hground] at hG
    exact MAp.mem_declaredFluents_of_used hd hp hground hG hc hnames hne

/-- A door that is opened with a key of which nothing else is said. -/
def door : Session :=
  ((readProblem "p" (some "(define (problem p) (:agents a) (:init) (:goal (up)))")).perform
    ((readDomain "d"
      (some "(define (domain d) (:predicates (up)) (:action go :precondition (key) :effect (up)))")).perform
      { task := { dialect := .levels } }).2).2

/-- Some action uses the key, and it is not met as a fluent. -/
def missesKey (d : Domain) : Bool :=
  let g := ((MAp.groundTask door.task d).perform {}).2
  (g.actions.any fun G => G.action.formulas.any fun c => (MAp.formula c).toOption == some "key") &&
    !g.fluents.contains "key"

theorem writeMAp_declares_used_iff_door : ∃ s', (writeMAp "o").perform door = (.ok (), s') ∧
    ∃ d p text rest, door.task.domain = some d ∧ door.task.problem = some p ∧
      s'.files.get? (mApPath "o" door.task.dialect d p) = some text ∧
      text = MAp.title ++ MAp.fluentSection (MAp.declaredFluents door.task d) ++ rest ∧
      (∀ G ∈ ((MAp.groundTask door.task d).perform {}).2.actions, ∀ c ∈ G.action.formulas, ∀ n, MAp.Names c n → n ≠ "" →
        (n ∈ MAp.declaredFluents door.task d ↔ MAp.IsTaskFluent d p n ∨ MAp.IsRecordedFor d G n)) ∧
      (∃ G ∈ ((MAp.groundTask door.task d).perform {}).2.actions, ∃ c ∈ G.action.formulas, MAp.Names c "key") ∧
      "key" ∉ MAp.declaredFluents door.task d := by
  have hok : ((writeMAp "o").perform door).1.isOk = true := by decide +kernel
  have hmisses : door.task.domain.any missesKey = true := by decide +kernel
  obtain ⟨d, p, text, rest, hd, hp, hfile, htext, hused⟩ := writeMAp_declares_used_iff (Work.ok_of_isOk hok)
  rw [hd, Option.any_some, missesKey, Bool.and_eq_true, List.any_eq_true] at hmisses
  obtain ⟨⟨G, hG, hkey⟩, hnone⟩ := hmisses
  obtain ⟨c, hc, hname⟩ := List.any_eq_true.1 hkey
  have hformula : MAp.formula c = .ok "key" := by
    cases h : MAp.formula c with
    | error e => simp [h, Except.toOption] at hname
    | ok n => simpa [h, Except.toOption] using hname
  refine ⟨_, Work.ok_of_isOk hok, d, p, text, rest, hd, hp, hfile, htext, hused,
    ⟨G, hG, c, hc, hformula, by decide⟩, ?_⟩
  rw [MAp.declaredFluents, List.mem_filter, MAp.mem_sorted]
  exact fun hmem => by simp [hmem.1] at hnone

end Session
end Epistemic
