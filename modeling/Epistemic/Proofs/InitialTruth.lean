import Epistemic.Proofs.Documents
import Epistemic.Proofs.Parsed
/-!
# What holds at first

In the document of a task that was read, every fact of the initial state is a declared fluent, and the fluents that are
said to be false are the other ones, each once.
-/
namespace Epistemic
namespace MAp

/-! ## Names that are not empty -/

theorem operator?_ne_empty {t : Tree} {op : String} (h : t.AllWords IsScanned) (hop : operator? t = .ok (some op)) :
    op ≠ "" := by
  unfold operator? at hop
  split at hop
  · split at hop
    · cases hop
      exact ofList_ne_empty (List.append_ne_nil_of_right_ne_nil _ (by decide))
    · split at hop
      · cases hop
        exact h.1
      · cases hop
  · split at hop
    · cases hop
    · split at hop <;> cases hop

/-- **A formula with words has a name that is not empty.** -/
theorem formula_ne_empty {t : Tree} {n : String} (hwords : t.AllWords IsScanned) (hitems : t.items ≠ [])
    (h : formula t = .ok n) : n ≠ "" := by
  have hall := hwords.items wordClass_isScanned
  unfold formula at h
  cases hlist : t.items with
  | nil => exact absurd hlist hitems
  | cons x xs =>
    rw [hlist] at h hall
    have hx := (List.forall_mem_cons.1 hall).1
    unfold formulaFrom at h
    split at h
    · cases h
    · cases hrest : formulaFrom 0 0 xs with
      | error e => rw [hrest] at h; cases h
      | ok rest =>
        rw [hrest] at h
        cases h
        exact append_ne_empty (append_ne_empty (Tree.shown_ne_empty fun heq => by subst heq; exact hx.1 rfl))
    · rename_i op hop
      split at h
      · cases h
      · rename_i text skip _
        cases hrest : formulaFrom skip (0 + 1) xs with
        | error e => rw [hrest] at h; cases h
        | ok rest =>
          rw [hrest] at h
          cases h
          exact append_ne_empty (append_ne_empty (operator?_ne_empty hx hop))

/-! ## True and false -/

/-- A document that settles which fluents hold at first: it declares every fact, and lists as false, each once, the
fluents that are no facts. -/
structure Settles (fluents : List String) (p : Problem) (text : String) (falses : List String) : Prop where
  layout : ∃ between trues rest, text =
    title ++ fluentSection fluents ++ between ++ truthHead ++ trues ++ falseLine falses ++ rest
  nodup : falses.Nodup
  fact_declared : ∀ n, IsFact p n → n ∈ fluents
  mem_falses : ∀ n, n ∈ falses ↔ n ∈ fluents ∧ ¬ IsFact p n
  settled : ∀ n ∈ fluents, (IsFact p n ∧ n ∉ falses) ∨ (¬ IsFact p n ∧ n ∈ falses)

theorem fact_mem_declaredFluents {t : Task} {d : Domain} {p : Problem} {g : Grounding} (hd : t.domain = some d)
    (hp : t.problem = some p) (hscanned : p.Scanned) (hrun : (groundTask t d).perform {} = (.ok (), g)) {n : String}
    (hfact : IsFact p n) : n ∈ declaredFluents t d := by
  obtain ⟨c, hc, hnames⟩ := hfact
  obtain ⟨hwords, hitems⟩ := hscanned c hc
  refine (mem_declaredFluents hd hp hrun).2 ⟨formula_ne_empty hwords hitems hnames.1, .inl (.inl ⟨c, ?_, hnames⟩)⟩
  simp [hc]

theorem settles_of_document {t : Task} {d : Domain} {p : Problem} {actions : List Action} {draft : Draft}
    (hd : t.domain = some d) (hp : t.problem = some p) (hscanned : p.Scanned)
    (h : (document t d p).perform { actions } = (.ok (), draft)) :
    ∃ falses, Settles (declaredFluents t d) p draft.text falses := by
  obtain ⟨g, facts, between, trues, rest, hrun, hfacts, htext⟩ := document_ok h
  have hmem : ∀ n, n ∈ (declaredFluents t d).filter (!facts.contains ·) ↔ n ∈ declaredFluents t d ∧ ¬ IsFact p n := by
    intro n
    simp [hfacts]
  refine ⟨_, ⟨⟨between, trues, rest, ?_⟩, (nodup_declaredFluents t d).filter _, ?_, hmem, ?_⟩⟩
  · rw [htext, String.empty_append]
  · exact fun n hn => fact_mem_declaredFluents hd hp hscanned hrun hn
  · intro n hn
    rw [hmem]
    by_cases hfact : IsFact p n
    · exact .inl ⟨hfact, fun h => h.2 hfact⟩
    · exact .inr ⟨hfact, hn, hfact⟩

end MAp

namespace Session

/-- **Every declared fluent is true or false at first, and not both.**  When the task of a session that was read is
written, all its facts are among the declared fluents, and the line of false fluents holds the others. -/
theorem writeMAp_settles {folder : String} {s s' : Session} (h : Parsed s)
    (hrun : (writeMAp folder).perform s = (.ok (), s')) :
    ∃ d p text falses, s.task.domain = some d ∧ s.task.problem = some p ∧
      s'.files.get? (mApPath folder s.task.dialect d p) = some text ∧
      MAp.Settles (MAp.declaredFluents s.task d) p text falses := by
  obtain ⟨d, p, actions, draft, hd, hp, hdocument, hfile⟩ := writeMAp_ok hrun
  obtain ⟨falses, hsettles⟩ := MAp.settles_of_document hd hp (h.scanned.problem p hp) hdocument
  exact ⟨d, p, draft.text, falses, hd, hp, hfile, hsettles⟩

/-- A lamp that is on, as the agent believes, and is to be hot. -/
def lamp : Session :=
  ((readProblem "p" (some "(define (problem p) (:agents a) (:init (on) ([a](on))) (:goal (hot)))")).perform
    ((readDomain "d" (some "(define (domain d) (:predicates (on) (hot)))")).perform
      { task := { dialect := .levels } }).2).2

theorem writeMAp_settles_lamp : Parsed lamp ∧ ∃ s', (writeMAp "out").perform lamp = (.ok (), s') ∧
    ∃ d p text falses, lamp.task.domain = some d ∧ lamp.task.problem = some p ∧
      s'.files.get? (mApPath "out" lamp.task.dialect d p) = some text ∧
      MAp.Settles (MAp.declaredFluents lamp.task d) p text falses := by
  have hparsed : Parsed lamp := .problem (.domain (.fresh .levels) _ _) _ _
  have hok : ((writeMAp "out").perform lamp).1.isOk = true := by decide +kernel
  exact ⟨hparsed, _, Work.ok_of_isOk hok, writeMAp_settles hparsed (Work.ok_of_isOk hok)⟩

end Session
end Epistemic
