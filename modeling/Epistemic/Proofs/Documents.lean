import Epistemic.Proofs.DeclaredFluents
import Epistemic.Session
/-!
# What a document holds

A document that was written to its end begins with the fluents that it declares, and says further down which of them
hold at first and which do not (`MAp.document_ok`).  What is written between is only added behind what was written
before.
-/
namespace Epistemic

open Draft (write)
open Work (Keeps perform_bind_eq_ok perform_ofExcept_bind_eq_ok)

/-! ## Writing on -/

theorem perform_write_bind {β : Type} (s : String) (next : Unit → Work Draft β) (draft : Draft) :
    (write s >>= next).perform draft = (next ()).perform { draft with text := draft.text ++ s } :=
  Work.perform_bind_ok (Work.perform_modify _ draft)

/-- A draft whose text begins with a text. -/
def Draft.Begins (start : String) (draft : Draft) : Prop := ∃ rest, draft.text = start ++ rest

theorem Draft.begins_self (draft : Draft) : draft.Begins draft.text := ⟨"", by simp⟩

section
variable {start : String}

theorem Draft.Begins.append {draft done : Draft} (h : draft.Begins start) {s : String}
    (hdone : done.text = draft.text ++ s) : done.Begins start := by
  obtain ⟨rest, hrest⟩ := h
  exact ⟨rest ++ s, by rw [hdone, hrest, String.append_assoc]⟩

theorem Draft.Begins.trans {draft done : Draft} (h : draft.Begins start) (hdone : done.Begins draft.text) :
    done.Begins start := by
  obtain ⟨rest, hrest⟩ := hdone
  exact h.append hrest

theorem keeps_write (s : String) : Keeps (Draft.Begins start) (write s) := fun _ h => h.append rfl

/-- What stays when more text is written. -/
def Draft.Open (I : Draft → Prop) : Prop :=
  ∀ (draft : Draft) (s : String), I draft → I { draft with text := draft.text ++ s }

theorem Draft.Open.keeps {I : Draft → Prop} (hI : Draft.Open I) (s : String) : Keeps I (write s) :=
  fun draft h => hI draft s h

theorem Draft.open_begins : Draft.Open (Draft.Begins start) := fun _ s => keeps_write s _

theorem keeps_print (how : Action → Work Sheet Unit) (place : Option Nat) (a : Action) :
    Keeps (Draft.Begins start) (Draft.print how place a) := by
  intro draft h
  rw [Draft.print, Work.perform_bind_ok (Work.perform_modify _ draft), Work.perform_ofExcept]
  exact h.append rfl

namespace MAp

section
variable {I : Draft → Prop} (hI : Draft.Open I)
include hI

theorem keeps_agentSection (d : Domain) : Keeps I (agentSection d) := by
  refine (hI.keeps _).bind fun _ => (Keeps.ofExcept _).bind fun agents => (hI.keeps _).bind fun _ => ?_
  split
  · exact Keeps.bind (fun _ h => h) fun _ => hI.keeps _
  · exact hI.keeps _

theorem keeps_truthSection (fluents : List String) (p : Problem) : Keeps I (truthSection fluents p) := by
  have hfacts : ∀ (ts : List Tree) (found : InitialTexts), Keeps I (factsFrom ts found) := by
    intro ts
    induction ts with
    | nil => exact fun _ _ h => h
    | cons t ts ih =>
      refine fun found => (Keeps.ofExcept _).bind fun text => ?_
      split
      · exact ih _
      · refine (hI.keeps _).bind fun _ => (Keeps.ofExcept _).bind fun comma => ?_
        split
        · exact (hI.keeps _).bind fun _ => ih _
        · exact ih _
  exact (hI.keeps _).bind fun _ => (hfacts _ _).bind fun _ => (hI.keeps _).bind fun _ _ h => h

theorem keeps_goalSection (p : Problem) : Keeps I (goalSection p) := by
  have hgoal : ∀ c, Keeps I (goal c) := fun c =>
    (hI.keeps _).bind fun _ => (Keeps.ofExcept _).bind fun _ => hI.keeps _
  exact (hI.keeps _).bind fun _ => (Keeps.each fun c _ => hgoal c).bind fun _ =>
    (Keeps.each fun c _ => hgoal c).bind fun _ => hI.keeps _

end

theorem keeps_actionSection (dialect : Dialect) (d : Domain) (actions : List GroundAction) :
    Keeps (Draft.Begins start) (actionSection dialect d actions) :=
  (keeps_write _).bind fun _ => (Keeps.each fun _ _ => keeps_print _ _ _).bind fun _ => keeps_write _

end MAp
end

/-! ## Facts -/

namespace MAp

/-- What stands before the fluents that hold at first. -/
def truthHead : String :=
  "%%%%%%%%%%%%%%%%%%    INITIAL FLUENTS TRUTH   %%%%%%%%%%%%%%%%%%\n" ++
  "%Fluents are considered true when are inserted in :init; otherwise are considered false\n\n" ++
  "%%%True fluents\n" ++
  "initially "

/-- The line of the fluents that do not hold at first, and the end of its section. -/
def falseLine (falses : List String) : String :=
  ";\n" ++ "%%%False fluents\n" ++ "initially " ++ String.intercalate ", " (falses.map ("-" ++ ·)) ++ ";\n\n" ++ rule ++
  "\n\n"

/-- A fact of the initial state, by its name. -/
def IsFact (p : Problem) (n : String) : Prop := ∃ c ∈ p.state, Names c n

theorem factsFrom_ok : ∀ {ts : List Tree} {found found' : InitialTexts} {draft done : Draft},
    (factsFrom ts found).perform draft = (.ok found', done) →
      done.Begins draft.text ∧ ∀ n, n ∈ found'.facts ↔ (∃ c ∈ ts, Names c n) ∨ n ∈ found.facts
  | [], found, found', draft, done, h => by
    cases h
    exact ⟨draft.begins_self, by simp⟩
  | t :: ts, found, found', draft, done, h => by
    obtain ⟨text, htext, h⟩ := perform_ofExcept_bind_eq_ok.1 h
    cases hop : hasOperator text with
    | true =>
      rw [hop] at h
      obtain ⟨hbegins, hfacts⟩ := factsFrom_ok h
      refine ⟨hbegins, fun n => ?_⟩
      have hnot : ¬ Names t n := by
        rintro ⟨hformula, hnone⟩
        rw [htext] at hformula
        cases hformula
        rw [hop] at hnone
        cases hnone
      simp [hfacts, hnot]
    | false =>
      rw [hop] at h
      simp only [Bool.false_eq_true, if_false] at h
      rw [perform_write_bind] at h
      obtain ⟨comma, _, h⟩ := perform_ofExcept_bind_eq_ok.1 h
      have hrest : done.Begins draft.text ∧
          ∀ n, n ∈ found'.facts ↔ (∃ c ∈ ts, Names c n) ∨ n ∈ text :: found.facts := by
        cases comma with
        | false =>
          obtain ⟨hbegins, hfacts⟩ := factsFrom_ok h
          exact ⟨(draft.begins_self.append rfl).trans hbegins, hfacts⟩
        | true =>
          simp only [if_true] at h
          rw [perform_write_bind] at h
          obtain ⟨hbegins, hfacts⟩ := factsFrom_ok h
          exact ⟨((draft.begins_self.append rfl).append rfl).trans hbegins, hfacts⟩
      refine ⟨hrest.1, fun n => ?_⟩
      have hnames : Names t n ↔ n = text := by
        simp only [Names, htext, Except.ok.injEq]
        constructor
        · exact fun h => h.1.symm
        · rintro rfl
          exact ⟨rfl, hop⟩
      simp only [hrest.2, List.mem_cons, exists_eq_or_imp, hnames]
      rw [or_left_comm, or_assoc]

theorem truthSection_ok {fluents : List String} {p : Problem} {found : InitialTexts} {draft done : Draft}
    (h : (truthSection fluents p).perform draft = (.ok found, done)) :
    (∀ n, n ∈ found.facts ↔ IsFact p n) ∧
      ∃ trues, done.text = draft.text ++ truthHead ++ trues ++
        falseLine (fluents.filter (!found.facts.contains ·)) := by
  rw [truthSection, perform_write_bind] at h
  obtain ⟨found', written, hfacts, h⟩ := perform_bind_eq_ok.1 h
  rw [perform_write_bind, Work.perform_pure] at h
  obtain ⟨hfound, rfl⟩ := Prod.mk.inj h
  cases hfound
  obtain ⟨⟨trues, htrues⟩, hmem⟩ := factsFrom_ok hfacts
  exact ⟨fun n => (hmem n).trans (by simp [IsFact]), trues, congrArg (· ++ falseLine _) htrues⟩

/-- What a document begins with. -/
def title : String :=
  "%This file is automatically generated from an E-PDDL specification and follows the mAp syntax.\n\n"

/-- **A document that was written to its end declares its fluents first**, and has the section of the fluents that hold
at first further down. -/
theorem document_truth {t : Task} {d : Domain} {p : Problem} {draft done : Draft}
    (h : (document t d p).perform draft = (.ok (), done)) :
    ∃ (g : Grounding) (before truth : Draft) (found : InitialTexts) (between rest : String),
      (groundTask t d).perform {} = (.ok (), g) ∧
      before.text = draft.text ++ title ++ fluentSection (declaredFluents t d) ++ between ∧
      (truthSection (declaredFluents t d) p).perform before = (.ok found, truth) ∧ done.text = truth.text ++ rest := by
  rw [document, perform_write_bind] at h
  obtain ⟨_, houtcome, h⟩ := perform_ofExcept_bind_eq_ok.1 h
  rw [perform_write_bind, perform_write_bind] at h
  obtain ⟨_, agents, hagents, h⟩ := perform_bind_eq_ok.1 h
  obtain ⟨_, actions, hactions, h⟩ := perform_bind_eq_ok.1 h
  obtain ⟨found, truth, htruth, h⟩ := perform_bind_eq_ok.1 h
  rw [perform_write_bind] at h
  have hbetween : actions.Begins (draft.text ++ title ++ fluentSection (declaredFluents t d)) :=
    (keeps_actionSection _ d _).of_ok hactions ((keeps_agentSection Draft.open_begins d).of_ok hagents ⟨_, rfl⟩)
  obtain ⟨between, hbetween⟩ := hbetween
  obtain ⟨rest, hrest⟩ := (keeps_goalSection Draft.open_begins p).of_ok h ((Draft.begins_self truth).append rfl)
  exact ⟨_, actions, truth, found, between, rest, Prod.ext houtcome rfl, hbetween, htruth, hrest⟩

/-- **A document that was written to its end says which of its fluents hold at first.** -/
theorem document_ok {t : Task} {d : Domain} {p : Problem} {draft done : Draft}
    (h : (document t d p).perform draft = (.ok (), done)) :
    ∃ (g : Grounding) (facts : List String) (between trues rest : String),
      (groundTask t d).perform {} = (.ok (), g) ∧ (∀ n, n ∈ facts ↔ IsFact p n) ∧
      done.text = draft.text ++ title ++ fluentSection (declaredFluents t d) ++ between ++ truthHead ++ trues ++
        falseLine ((declaredFluents t d).filter (!facts.contains ·)) ++ rest := by
  obtain ⟨g, before, truth, found, between, rest, hground, hbefore, htruth, hrest⟩ := document_truth h
  obtain ⟨hfacts, trues, htrues⟩ := truthSection_ok htruth
  exact ⟨g, found.facts, between, trues, rest, hground, hfacts, by rw [hrest, htrues, hbefore]⟩

end MAp

/-- A run that is seen to go well. -/
theorem Work.ok_of_isOk {σ : Type} {w : Work σ Unit} {s : σ} (h : (w.perform s).1.isOk = true) :
    w.perform s = (.ok (), (w.perform s).2) := by
  rcases hrun : w.perform s with ⟨_ | ⟨⟩, t⟩
  · rw [hrun] at h
    cases h
  · rfl

theorem Tree.name_eq_ok {t : Tree} {n : String} (h : t.name = .ok n) : t = .word n := by
  cases t with
  | word w =>
    cases h
    rfl
  | list xs => cases h

namespace Session

/-- The path of the file that a task is written to in mAp. -/
def mApPath (folder : String) (dialect : Dialect) (d : Domain) (p : Problem) : String :=
  folder ++ "/" ++ (d.name.shown ++ "_" ++ p.name.shown) ++ extension dialect

theorem perform_domainName {s : Session} {d : Domain} (hd : s.task.domain = some d) :
    domainName.perform s = (d.name.name, s) := by
  rw [domainName, Work.perform_bind_ok (Work.perform_get s), Work.perform_ofExcept, Task.needDomain, hd]
  rfl

theorem perform_problemName {s : Session} {p : Problem} (hp : s.task.problem = some p) :
    problemName.perform s = (p.name.name, s) := by
  rw [problemName, Work.perform_bind_ok (Work.perform_get s), Work.perform_ofExcept, Task.needProblem, hp]
  rfl

/-- **A task that is written has a domain and a problem with names, and its document is written to the file that is
called after them.** -/
theorem writeMAp_eq_ok {folder : String} {s s' : Session} (h : (writeMAp folder).perform s = (.ok (), s')) :
    ∃ d p n q, s.task.domain = some d ∧ s.task.problem = some p ∧ d.name = .word n ∧ p.name = .word q ∧
      (writeFile (mApPath folder s.task.dialect d p) (MAp.document s.task d p)).perform s = (.ok (), s') := by
  obtain ⟨name, s₁, hname, h⟩ := perform_bind_eq_ok.1 h
  obtain ⟨n, s₂, hn, hname⟩ := perform_bind_eq_ok.1 hname
  obtain ⟨q, s₃, hq, hname⟩ := perform_bind_eq_ok.1 hname
  cases hname
  cases hd : s.task.domain with
  | none =>
    rw [domainName, Work.perform_bind_ok (Work.perform_get s), Task.needDomain, hd] at hn
    cases hn
  | some d =>
    rw [perform_domainName hd] at hn
    obtain ⟨hdomain, rfl⟩ := Prod.mk.inj hn
    cases hp : s.task.problem with
    | none =>
      rw [problemName, Work.perform_bind_ok (Work.perform_get s), Task.needProblem, hp] at hq
      cases hq
    | some p =>
      rw [perform_problemName hp] at hq
      obtain ⟨hproblem, rfl⟩ := Prod.mk.inj hq
      have hdomain := Tree.name_eq_ok hdomain
      have hproblem := Tree.name_eq_ok hproblem
      rw [Work.perform_bind_ok (Work.perform_get s)] at h
      obtain ⟨d', hd', h⟩ := perform_ofExcept_bind_eq_ok.1 h
      obtain ⟨p', hp', h⟩ := perform_ofExcept_bind_eq_ok.1 h
      rw [Task.needDomain, hd] at hd'
      rw [Task.needProblem, hp] at hp'
      cases hd'
      cases hp'
      refine ⟨d, p, n, q, rfl, rfl, hdomain, hproblem, ?_⟩
      rw [mApPath, hdomain, hproblem]
      exact h

theorem writeFile_ok {path : String} {document : Work Draft Unit} {s s' : Session}
    (h : (writeFile path document).perform s = (.ok (), s')) :
    ∃ actions draft, document.perform { actions } = (.ok (), draft) ∧ s'.files.get? path = some draft.text := by
  rw [writeFile, Work.perform_bind_ok (Work.perform_get s), Work.perform_bind_ok (Work.perform_modify _ s),
    Work.perform_ofExcept] at h
  obtain ⟨hok, rfl⟩ := Prod.mk.inj h
  exact ⟨_, _, Prod.ext hok rfl, by simp only [Catalog.get?_insert, if_true]⟩

/-- **A task that was written is in its file**, as the document of its domain and its problem. -/
theorem writeMAp_ok {folder : String} {s s' : Session} (h : (writeMAp folder).perform s = (.ok (), s')) :
    ∃ d p actions draft, s.task.domain = some d ∧ s.task.problem = some p ∧
      (MAp.document s.task d p).perform { actions } = (.ok (), draft) ∧
      s'.files.get? (mApPath folder s.task.dialect d p) = some draft.text := by
  obtain ⟨d, p, n, q, hd, hp, -, -, h⟩ := writeMAp_eq_ok h
  obtain ⟨actions, draft, hdraft, hfile⟩ := writeFile_ok h
  exact ⟨d, p, actions, draft, hd, hp, hdraft, hfile⟩

end Session
end Epistemic
