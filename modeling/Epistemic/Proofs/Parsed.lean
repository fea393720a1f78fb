import Epistemic.Proofs.EffectWords
import Epistemic.Session
/-!
# Tasks that were read

A session in which domains and problems were read, in whatever order and with whatever outcome (`Session.Parsed`), has a
task whose words are those of texts: the formulas of its actions are spelled, and the facts of its initial state are
scanned words (`Session.Parsed.scanned`).
-/
namespace Epistemic

/-! ## Actions -/

/-- The bodies of observers are in the class. -/
def Observers.AllWords (P : String → Prop) : Observers Entry → Prop
  | .levels full inPart => (∀ e ∈ full, e.body.AllWords P) ∧ ∀ e ∈ inPart, e.body.AllWords P
  | .groups members => ∀ g es, members.get? g = some es → ∀ e ∈ es, e.body.AllWords P

namespace Action

/-- The preconditions, effects and observers of an action are in the class. -/
structure AllWords (P : String → Prop) (a : Action) : Prop where
  preconditions : Literals.AllWords P ⟨a.positivePreconditions, a.negativePreconditions⟩
  effects : Reading.AllWords P ⟨a.guards, a.addEffects, a.deleteEffects⟩
  observers : a.observers.AllWords P

section
variable {P : String → Prop} (hP : EffectClass P) {a b : Action}

theorem AllWords.readParameters {t : Tree} (h : a.AllWords P) (hread : a.readParameters t = .ok b) : b.AllWords P := by
  unfold Action.readParameters at hread
  split at hread
  · split at hread
    · cases hread
      exact ⟨h.preconditions, h.effects, h.observers⟩
    · cases hread
  · simp only at hread
    split at hread
    · cases hread
    · cases hread
      exact ⟨h.preconditions, h.effects, h.observers⟩

include hP

theorem AllWords.readPrecondition {t : Tree} (h : a.AllWords P) (ht : t.AllWords P)
    (hread : a.readPrecondition t = .ok b) : b.AllWords P := by
  unfold Action.readPrecondition at hread
  simp only at hread
  split at hread
  · cases hread
  · cases hread
    exact ⟨h.preconditions.split hP.toWordClass ht, h.effects, h.observers⟩

theorem AllWords.addEffect {t : Tree} (h : a.AllWords P) (ht : t.AllWords P) (hread : a.addEffect t = .ok b) :
    b.AllWords P := by
  unfold Action.addEffect at hread
  simp only at hread
  split at hread
  · cases hread
  · cases hread
    exact ⟨h.preconditions, allWords_readClause hP ht h.effects, h.observers⟩

/-- Observers that are read behind others are in the class, as are the guards that they add. -/
theorem AllWords.addObservers {known entries : List Entry} {t : Tree} {guards : List Guard} (h : a.AllWords P)
    (hknown : ∀ e ∈ known, e.body.AllWords P) (ht : t.AllWords P)
    (hread : a.addObservers known t = .ok (guards, entries)) :
    (∀ g ∈ guards, g.AllWords P) ∧ ∀ e ∈ entries, e.body.AllWords P := by
  unfold Action.addObservers at hread
  simp only at hread
  split at hread
  · cases hread
  · cases hread
    have hr : Reading.AllWords P ⟨a.guards, known, []⟩ := ⟨h.effects.guards, hknown, by simp⟩
    have hdone : (readClause ⟨a.name ++ " agents", true⟩ t ⟨a.guards, known, []⟩).reading.AllWords P :=
      allWords_readClause hP ht hr
    exact ⟨hdone.guards, hdone.positive⟩

theorem AllWords.withObservers {known : List Entry} {t : Tree} {f : List Guard × List Entry → Action}
    (h : a.AllWords P) (hknown : ∀ e ∈ known, e.body.AllWords P) (ht : t.AllWords P)
    (hread : (a.addObservers known t).map f = .ok b)
    (hf : ∀ guards es, (∀ g ∈ guards, g.AllWords P) → (∀ e ∈ es, e.body.AllWords P) → (f (guards, es)).AllWords P) :
    b.AllWords P := by
  cases hadd : a.addObservers known t with
  | error e => rw [hadd] at hread; cases hread
  | ok found =>
    rw [hadd] at hread
    cases hread
    obtain ⟨hguards, hentries⟩ := h.addObservers hP hknown ht hadd
    exact hf _ _ hguards hentries

theorem AllWords.addFullObservers {t : Tree} (h : a.AllWords P) (ht : t.AllWords P)
    (hread : a.addFullObservers t = .ok b) : b.AllWords P := by
  have ho := h.observers
  unfold Action.addFullObservers at hread
  split at hread
  · rename_i full inPart heq
    rw [heq] at ho
    refine h.withObservers hP ho.1 ht hread fun guards es hguards hes => ?_
    exact ⟨h.preconditions, ⟨hguards, h.effects.positive, h.effects.negative⟩, hes, ho.2⟩
  · cases hread
    exact h

theorem AllWords.addObserversInPart {t : Tree} (h : a.AllWords P) (ht : t.AllWords P)
    (hread : a.addObserversInPart t = .ok b) : b.AllWords P := by
  have ho := h.observers
  unfold Action.addObserversInPart at hread
  split at hread
  · rename_i full inPart heq
    rw [heq] at ho
    refine h.withObservers hP ho.2 ht hread fun guards es hguards hes => ?_
    exact ⟨h.preconditions, ⟨hguards, h.effects.positive, h.effects.negative⟩, ho.1, hes⟩
  · cases hread
    exact h

theorem AllWords.addToGroup {group : String} {t : Tree} (h : a.AllWords P) (ht : t.AllWords P)
    (hread : a.addToGroup group t = .ok b) : b.AllWords P := by
  have ho := h.observers
  unfold Action.addToGroup at hread
  split at hread
  · rename_i members heq
    rw [heq] at ho
    have hknown : ∀ e ∈ (members.get? group).getD [], e.body.AllWords P := by
      cases hget : members.get? group with
      | none => simp
      | some es => exact ho group es hget
    refine h.withObservers hP hknown ht hread fun guards es hguards hes => ?_
    refine ⟨h.preconditions, ⟨hguards, h.effects.positive, h.effects.negative⟩, fun g es' hget => ?_⟩
    rw [Catalog.get?_insert] at hget
    split at hget
    · cases hget
      exact hes
    · exact ho g es' hget
  · cases hread
    exact h

theorem AllWords.setField {value : Tree} {field : ActionField} (h : a.AllWords P) (ht : value.AllWords P)
    (hset : a.setField value field = .ok b) : b.AllWords P := by
  cases field with
  | parameters => exact h.readParameters hset
  | kind =>
    simp only [Action.setField] at hset
    cases hkind : ActionKind.read value with
    | error e => rw [hkind] at hset; cases hset
    | ok kind =>
      rw [hkind] at hset
      cases hset
      exact ⟨h.preconditions, h.effects, h.observers⟩
  | precondition => exact h.readPrecondition hP ht hset
  | effect => exact h.addEffect hP ht hset
  | observers => exact h.addFullObservers hP ht hset
  | observersInPart => exact h.addObserversInPart hP ht hset
  | derivation => cases hset; exact ⟨h.preconditions, h.effects, h.observers⟩
  | explicitEffect => cases hset; exact ⟨h.preconditions, h.effects, h.observers⟩

/-- **Fields are read within the class.** -/
theorem AllWords.declareFields {dialect : Dialect} {groups ts : List Tree} {report : String}
    (h : a.AllWords P) (hts : ∀ t ∈ ts, t.AllWords P)
    (hread : (declareFields dialect groups ts report a).outcome = .ok b) : b.AllWords P := by
  fun_induction Action.declareFields dialect groups ts report a with
  | case1 => cases hread; exact h
  | case2 t ts report a _ ih => exact ih h (List.forall_mem_cons.1 hts).2 hread
  | case7 t report a field _ value _ group _ _ value' ts a' hadd ih =>
    have hts := List.forall_mem_cons.1 (List.forall_mem_cons.1 (List.forall_mem_cons.1 hts).2).2
    exact ih (h.addToGroup hP hts.1 hadd) hts.2 hread
  | case10 t report a field _ value ts _ a' hset ih =>
    have hts := List.forall_mem_cons.1 (List.forall_mem_cons.1 hts).2
    exact ih (h.setField hP hts.1 hset) hts.2 hread
  | case3 | case4 | case5 | case6 | case8 | case9 => cases hread

omit hP in
theorem allWords_noObservers {dialect : Dialect} {groups : List Tree} {o : Observers Entry}
    (h : noObservers dialect groups = .ok o) : o.AllWords P := by
  unfold noObservers at h
  split at h
  · cases h
    exact ⟨by simp, by simp⟩
  · split at h
    · cases h
    · cases h
      have hfold : ∀ (gs : List Tree) (c : Catalog (List Entry)), (∀ g es, c.get? g = some es → es = []) →
          ∀ g es, (gs.foldl (fun c g => c.insert g.shown []) c).get? g = some es → es = [] := by
        intro gs
        induction gs with
        | nil => exact fun c hc => hc
        | cons x gs ih =>
          intro c hc
          refine ih _ fun g es hget => ?_
          rw [Catalog.get?_insert] at hget
          split at hget
          · cases hget
            rfl
          · exact hc g es hget
      intro g es hget e he
      rw [hfold _ [] (by simp [Catalog.get?]) g es hget] at he
      cases he

theorem allWords_declare {dialect : Dialect} {known : List String} {groups ts : List Tree}
    (hts : ∀ t ∈ ts, t.AllWords P) (hread : (declare dialect known groups ts).outcome = .ok a) : a.AllWords P := by
  unfold declare at hread
  split at hread
  · cases hread
  · cases hread
  · rename_i name ts
    split at hread
    · cases hread
    · split at hread
      · cases hread
      · rename_i observers hobservers
        have hnew : AllWords P { name, observers } :=
          ⟨⟨by simp, by simp⟩, ⟨by simp, by simp, by simp⟩, allWords_noObservers hobservers⟩
        exact hnew.declareFields hP (List.forall_mem_cons.1 hts).2 hread

end
end Action

/-! ## Domains and problems -/

namespace Domain

/-- **What every section keeps, sections keep.** -/
theorem readSections_keeps {dialect : Dialect} {P : Domain → Prop} {ts : List Tree} {d : Domain}
    (hstep : ∀ d, ∀ t ∈ ts, P d → P (d.readSection dialect t).domain) (h : P d) :
    P (d.readSections dialect ts).domain := by
  induction ts generalizing d with
  | nil => exact h
  | cons t ts ih =>
    have hfirst := hstep d t List.mem_cons_self h
    unfold readSections
    simp only
    split
    · exact hfirst
    · exact ih (fun d u hu => hstep d u (List.mem_cons_of_mem t hu)) hfirst

/-- The actions of a domain are in the class. -/
def AllWords (P : String → Prop) (d : Domain) : Prop := ∀ a ∈ d.actions, a.AllWords P

section
variable {P : String → Prop} (hP : EffectClass P) {dialect : Dialect}
include hP

theorem AllWords.readBehind {d : Domain} (h : d.AllWords P) {keyword : Tree} {ts : List Tree}
    (hts : ∀ t ∈ ts, t.AllWords P) : (d.readBehind dialect keyword ts).domain.AllWords P := by
  unfold Domain.readBehind
  split
  · cases ts <;> exact h
  split
  · unfold readRequirements
    split <;> exact h
  split
  · exact h
  split
  · exact h
  split
  · exact h
  split
  · unfold readAction
    simp only
    split
    · exact h
    · rename_i a hread
      exact List.forall_mem_append.2 ⟨h, by simpa using Action.allWords_declare hP hts hread⟩
  split <;> exact h

theorem AllWords.readSection {d : Domain} (h : d.AllWords P) {t : Tree} (ht : t.AllWords P) :
    (d.readSection dialect t).domain.AllWords P := by
  unfold Domain.readSection
  split
  · exact h
  · exact h
  · exact h.readBehind hP (List.forall_mem_cons.1 (Tree.allWords_list.1 ht)).2

theorem AllWords.readSections {ts : List Tree} {d : Domain} (h : d.AllWords P) (hts : ∀ t ∈ ts, t.AllWords P) :
    (d.readSections dialect ts).domain.AllWords P :=
  readSections_keeps (fun _ t ht hd => AllWords.readSection hP hd (hts t ht)) h

end
end Domain

theorem isSpelled_marked {w : String} (h : IsSpelled w) : IsSpelled (marked w) := by
  intro hop
  have hlist : (marked w).toList = "FASTART".toList ++ (w.toList ++ "FASTOP".toList) := by
    rw [marked, String.toList_append, String.toList_append, List.append_assoc]
  have hw : Literals.isOperator (.word w) = true := by
    simp only [Literals.isOperator, Tree.hasBelief, Tree.hasCommonBelief, Tree.mentions, Bool.or_eq_true,
      hlist] at hop ⊢
    refine hop.imp (fun h => ?_) fun h => ?_
    · exact Text.occurs_pair_append (by decide) (Text.occurs_append_of_not_mem (by decide) h)
    · exact Text.occurs_pair_append (by decide) (Text.occurs_append_of_not_mem (by decide) h)
  obtain ⟨before, mark, agents, after, hform⟩ := h hw
  have hopen := hform.parenthesis
  have hline := hform.newline
  have hcomma := hform.comma
  simp only [List.mem_append, not_or] at hopen hline hcomma
  refine ⟨"FASTART".toList ++ before, mark, agents, after ++ "FASTOP".toList, ⟨?_, hform.mark, ?_, ?_, ?_⟩⟩
  · rw [hlist, hform.eq]
    simp only [List.append_assoc, List.cons_append]
  · simp [hopen]
  · simp [hline]
  · simp [hcomma]

theorem effectClass_isSpelled : EffectClass IsSpelled where
  toWordClass := wordClass_isSpelled
  empty := .of_not_mem (by decide)
  marked _ := isSpelled_marked

namespace Problem

/-- Every fact of the initial state has a word, and all its words are scanned. -/
def Scanned (p : Problem) : Prop := ∀ f ∈ p.state, f.AllWords IsScanned ∧ f.items ≠ []

section
variable {task : Task} {problem : Problem} {ts : List Tree}

/-- What a section of a problem leaves as it is, and what it reads. -/
structure Read.Scanned (task : Task) (done : Read) : Prop where
  actions : ∀ d, done.task.domain = some d → ∃ d', task.domain = some d' ∧ d.actions = d'.actions
  problem : done.problem.Scanned

theorem scanned_readObjects (hp : problem.Scanned) (declare : List Tree → Hierarchy → Hierarchy.Declared) :
    (readObjects declare task problem ts).Scanned task := by
  unfold readObjects
  split
  · exact ⟨fun d hd => ⟨d, hd, rfl⟩, hp⟩
  · rename_i d hdomain
    refine ⟨fun d' hd' => ?_, hp⟩
    cases hd'
    exact ⟨d, hdomain, rfl⟩

theorem scanned_readLiterals (hp : problem.Scanned) {place : String} {keep : Literals → Problem}
    (hts : ∀ t ∈ ts, t.AllWords IsScanned) (hkeep : ∀ ls : Literals, ls.AllWords IsScanned → (keep ls).Scanned) :
    (readLiterals place keep task problem ts).Scanned task := by
  unfold readLiterals
  simp only
  split
  · exact ⟨fun d hd => ⟨d, hd, rfl⟩, hp⟩
  · refine ⟨fun d hd => ⟨d, hd, rfl⟩, hkeep _ ?_⟩
    exact Literals.AllWords.addAll wordClass_isScanned ⟨by simp, by simp⟩ hts

theorem scanned_readBehind (hp : problem.Scanned) {keyword : Tree} (hts : ∀ t ∈ ts, t.AllWords IsScanned) :
    (readBehind task problem keyword ts).Scanned task := by
  have hsame : ∀ {report : String} {fault : Option Fault}, Read.Scanned task ⟨task, problem, report, fault⟩ :=
    ⟨fun d hd => ⟨d, hd, rfl⟩, hp⟩
  unfold readBehind
  split
  · cases ts
    · exact hsame
    · exact ⟨fun d hd => ⟨d, hd, rfl⟩, hp⟩
  split
  · exact hsame
  split
  · exact hsame
  split
  · exact scanned_readObjects hp _
  split
  · exact scanned_readObjects hp _
  split
  · cases ts
    · exact hsame
    · exact ⟨fun d hd => ⟨d, hd, rfl⟩, hp⟩
  split
  · exact scanned_readLiterals hp hts fun ls hls => hls.positive
  split
  · exact scanned_readLiterals hp hts fun _ _ => hp
  · exact hsame

theorem scanned_readSection (hp : problem.Scanned) {t : Tree} (ht : t.AllWords IsScanned) :
    (readSection task problem t).Scanned task := by
  unfold readSection
  split
  · exact ⟨fun d hd => ⟨d, hd, rfl⟩, hp⟩
  · exact ⟨fun d hd => ⟨d, hd, rfl⟩, hp⟩
  · exact scanned_readBehind hp (List.forall_mem_cons.1 (Tree.allWords_list.1 ht)).2

end

/-- **What every section keeps, sections keep.** -/
theorem readSections_keeps {P : Task → Problem → Prop} {ts : List Tree} {task : Task} {problem : Problem}
    (hstep : ∀ task problem, ∀ t ∈ ts, P task problem →
      P (readSection task problem t).task (readSection task problem t).problem)
    (h : P task problem) : P (readSections task problem ts).task (readSections task problem ts).problem := by
  induction ts generalizing task problem with
  | nil => exact h
  | cons t ts ih =>
    have hfirst := hstep task problem t List.mem_cons_self h
    unfold readSections
    simp only
    split
    · exact hfirst
    · exact ih (fun task problem u hu => hstep task problem u (List.mem_cons_of_mem t hu)) hfirst

theorem scanned_readSections {ts : List Tree} {task : Task} {problem : Problem} (hp : problem.Scanned)
    (hts : ∀ t ∈ ts, t.AllWords IsScanned) : (readSections task problem ts).Scanned task := by
  have hkept : Read.Scanned task
      { task := (readSections task problem ts).task, problem := (readSections task problem ts).problem } := by
    refine readSections_keeps (P := fun t p => Read.Scanned task { task := t, problem := p }) ?_
      ⟨fun d hd => ⟨d, hd, rfl⟩, hp⟩
    intro task' problem' t ht hbefore
    have hread : (readSection task' problem' t).Scanned task' := scanned_readSection hbefore.problem (hts t ht)
    refine ⟨fun d hd => ?_, hread.problem⟩
    obtain ⟨d₁, hd₁, hactions₁⟩ := hread.actions d hd
    obtain ⟨d₂, hd₂, hactions₂⟩ := hbefore.actions d₁ hd₁
    exact ⟨d₂, hd₂, hactions₁.trans hactions₂⟩
  exact ⟨hkept.actions, hkept.problem⟩

end Problem

/-- The formulas of the actions are spelled, and the facts of the initial state are scanned. -/
structure Task.Scanned (t : Task) : Prop where
  domain : ∀ d, t.domain = some d → d.AllWords IsSpelled
  problem : ∀ p, t.problem = some p → p.Scanned

/-! ## Sessions -/

namespace Session

/-- A session in which domains and problems were read, from any files and with any outcome. -/
inductive Parsed : Session → Prop
  | fresh (dialect : Dialect) : Parsed { task := { dialect } }
  | domain {s : Session} (h : Parsed s) (file : String) (text : Option String) :
      Parsed ((readDomain file text).perform s).2
  | problem {s : Session} (h : Parsed s) (file : String) (text : Option String) :
      Parsed ((readProblem file text).perform s).2

/-- The session in which a domain and a problem were read from their texts. -/
def ofTexts (dialect : Dialect) (domain problem : String) : Session :=
  ((readProblem "problem" (some problem)).perform
    ((readDomain "domain" (some domain)).perform { task := { dialect } }).2).2

theorem parsed_ofTexts (dialect : Dialect) (domain problem : String) : Parsed (ofTexts dialect domain problem) :=
  .problem (.domain (.fresh dialect) _ _) _ _

/-- A tree that is found was read from a text. -/
theorem scan_found {file : String} {text : Option String} {s s' : Session} {found : Except Fault (Option Tree)}
    (h : (scan file text).perform s = (found, s')) :
    s'.task = s.task ∧ ∀ t, found = .ok (some t) → ∃ text, Source.scan s.task.dialect text = .ok t := by
  unfold scan at h
  cases text with
  | none =>
    cases h
    exact ⟨rfl, fun t ht => by cases ht⟩
  | some text =>
    simp only at h
    rw [Work.perform_bind_ok (Work.perform_get s)] at h
    cases hscan : Source.scan s.task.dialect text with
    | error e =>
      rw [hscan] at h
      cases h
      exact ⟨rfl, fun t ht => by cases ht⟩
    | ok tree =>
      rw [hscan] at h
      cases h
      exact ⟨rfl, fun t ht => by cases ht; exact ⟨text, hscan⟩⟩

theorem sections_ok {otherwise : Refusal} {found : Option Tree} {ts : List Tree}
    (h : sections otherwise found = .ok ts) : ∃ head, found = some (.list (head :: ts)) := by
  unfold sections at h
  split at h
  · cases h
  · rename_i head _
    split at h <;> cases h
    exact ⟨head, rfl⟩
  · cases h

/-- Sections that were read from a text. -/
def AreSections (dialect : Dialect) (parts : List Tree) : Prop :=
  ∃ text head, Source.scan dialect text = .ok (.list (head :: parts))

theorem AreSections.allWords {dialect : Dialect} {parts : List Tree} {P B : String → Prop}
    (hclass : Source.TokenClass Source.IsTextWord P B) (h : AreSections dialect parts) : ∀ t ∈ parts, t.AllWords P := by
  obtain ⟨_, _, hscan⟩ := h
  exact (List.forall_mem_cons.1 (Tree.allWords_list.1 (hclass.of_scan hscan))).2

theorem perform_stopAt (fault : Option Fault) (s : Session) : ((stopAt fault).perform s).2 = s := by
  cases fault <;> rfl

/-- **What reading a domain does to the task**: nothing, or it has the domain of some sections of a text. -/
theorem readDomain_sections (s : Session) (file : String) (text : Option String) :
    ((readDomain file text).perform s).2.task = s.task ∨ ∃ parts, AreSections s.task.dialect parts ∧
      ((readDomain file text).perform s).2.task =
        { s.task with domain := some (({} : Domain).readSections s.task.dialect parts).domain } := by
  unfold readDomain
  rw [Work.perform_bind]
  rcases hscan : (scan file text).perform s with ⟨_ | found, s₁⟩
  · exact .inl (scan_found hscan).1
  · obtain ⟨htask, hfound⟩ := scan_found hscan
    simp only
    rw [Work.perform_bind, Work.perform_ofExcept]
    cases hparts : sections (.notADomain file) found with
    | error e => exact .inl htask
    | ok parts =>
      simp only
      rw [Work.perform_bind_ok (Work.perform_get s₁), Work.perform_bind_ok (Work.perform_modify _ s₁),
        perform_stopAt]
      obtain ⟨head, rfl⟩ := sections_ok hparts
      obtain ⟨text, htext⟩ := hfound _ rfl
      exact .inr ⟨parts, ⟨text, head, htext⟩, by rw [htask]⟩

theorem readDomain_task (s : Session) (file : String) (text : Option String) :
    ((readDomain file text).perform s).2.task = s.task ∨ ∃ parts : List Tree, (∀ t ∈ parts, t.AllWords IsScanned) ∧
      ((readDomain file text).perform s).2.task =
        { s.task with domain := some (({} : Domain).readSections s.task.dialect parts).domain } :=
  (readDomain_sections s file text).imp_right fun ⟨parts, hparts, htask⟩ =>
    ⟨parts, hparts.allWords Source.tokenClass_isScanned, htask⟩

/-- **What reading a problem does to the task**: its depth is the usual one, and then it is as some scanned sections
leave it. -/
theorem readProblem_task (s : Session) (file : String) (text : Option String) :
    ∃ begun : Task, begun = { s.task with depth := some .standard } ∧
      (((readProblem file text).perform s).2.task = begun ∨ ∃ parts : List Tree, (∀ t ∈ parts, t.AllWords IsScanned) ∧
        ((readProblem file text).perform s).2.task = { (Problem.readSections begun {} parts).task with
          problem := some (Problem.readSections begun {} parts).problem }) := by
  refine ⟨_, rfl, ?_⟩
  unfold readProblem
  rw [Work.perform_bind_ok (Work.perform_modify _ s), Work.perform_bind]
  rcases hscan : (scan file text).perform _ with ⟨_ | found, s₁⟩
  · exact .inl (scan_found hscan).1
  · obtain ⟨htask, hfound⟩ := scan_found hscan
    simp only
    rw [Work.perform_bind, Work.perform_ofExcept]
    cases hparts : sections (.notAProblem file) found with
    | error e => exact .inl htask
    | ok parts =>
      simp only
      rw [Work.perform_bind_ok (Work.perform_get s₁), Work.perform_bind_ok (Work.perform_modify _ s₁),
        perform_stopAt]
      obtain ⟨head, rfl⟩ := sections_ok hparts
      obtain ⟨text, htext⟩ := hfound _ rfl
      exact .inr ⟨parts, AreSections.allWords Source.tokenClass_isScanned ⟨text, head, htext⟩, by rw [htask]⟩

theorem scanned_readDomain {s : Session} (h : s.task.Scanned) (file : String) (text : Option String) :
    ((readDomain file text).perform s).2.task.Scanned := by
  rcases readDomain_task s file text with heq | ⟨parts, hparts, heq⟩
  · exact heq ▸ h
  · rw [heq]
    refine ⟨fun d hd => ?_, h.problem⟩
    cases hd
    exact Domain.AllWords.readSections effectClass_isSpelled (fun a ha => by cases ha)
      fun t ht => (hparts t ht).imp fun _ hw => hw.2

theorem scanned_readProblem {s : Session} (h : s.task.Scanned) (file : String) (text : Option String) :
    ((readProblem file text).perform s).2.task.Scanned := by
  obtain ⟨begun, hbegun, heq | ⟨parts, hparts, heq⟩⟩ := readProblem_task s file text
  · rw [heq, hbegun]
    exact ⟨h.domain, h.problem⟩
  · have hscanned : begun.Scanned := hbegun ▸ ⟨h.domain, h.problem⟩
    have hempty : ({} : Problem).Scanned := fun f hf => by cases hf
    have hdone : (Problem.readSections begun {} parts).Scanned begun := Problem.scanned_readSections hempty hparts
    rw [heq]
    refine ⟨fun d hd a ha => ?_, fun p hp => ?_⟩
    · obtain ⟨d', hd', hactions⟩ := hdone.actions d hd
      exact hscanned.domain d' hd' a (hactions ▸ ha)
    · cases hp
      exact hdone.problem

/-- **A task that was read holds the words of texts.** -/
theorem Parsed.scanned {s : Session} (h : Parsed s) : s.task.Scanned := by
  induction h with
  | fresh dialect => exact ⟨by simp, by simp⟩
  | domain _ file text ih => exact scanned_readDomain ih file text
  | problem _ file text ih => exact scanned_readProblem ih file text

end Session
end Epistemic
