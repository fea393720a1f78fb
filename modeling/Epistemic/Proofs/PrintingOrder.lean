import Epistemic.Proofs.AlikeGuards
/-!
# The order of printing

A task that is written in PDKB when it has been written in mAp is written as if it had been written in PDKB at once,
exactly if none of the actions that are reached is disturbed (`Session.writePdkb_after_writeMAp`).  One that is
disturbed has no parameters, and its observers have a quantified clause whose guard mAp prints where it stands, because
the clause names an agent too or shares its guard with an effect; what clearing leaves of that guard states another
condition for deriving beliefs, or none.
-/
namespace Epistemic

open Work (Respects perform_bind_eq_ok)

namespace Pdkb

/-! ## Documents -/

/-- Drafts with one text. -/
def SameText (draft draft' : Draft) : Prop := draft.text = draft'.text

theorem respects_draftWrite (s : String) : Respects SameText (Draft.write s) := fun _ _ h => ⟨rfl, congrArg (· ++ s) h⟩

theorem respects_agentDeclaration (d : Domain) : Respects SameText (agentDeclaration d) :=
  (respects_draftWrite _).bind fun _ => (Respects.ofExcept _).bind fun agents =>
    (Respects.each (fun _ => (Respects.ofExcept _).bind fun _ => respects_draftWrite _) agents).bind fun _ =>
      respects_draftWrite _

theorem respects_subtypes (size : Nat) (ts : List Tree) : ∀ count, Respects SameText (subtypes size count ts) := by
  induction ts with
  | nil => exact fun count => .ofPure count
  | cons t ts ih =>
    refine fun count => (Respects.ofExcept _).bind fun _ => (respects_draftWrite _).bind fun _ => ?_
    split
    · exact (respects_draftWrite _).bind fun _ => ih _
    · exact ih _

theorem respects_typeDeclaration (d : Domain) : Respects SameText (typeDeclaration d) := by
  have hfrom : ∀ (types : Hierarchy) (count : Nat), Respects SameText (typesFrom count types) := by
    intro types
    induction types with
    | nil => exact fun _ => .ofPure ()
    | cons entry types ih => exact fun count => (respects_subtypes _ _ count).bind fun _ => ih _
  exact (respects_draftWrite _).bind fun _ => (hfrom _ _).bind fun _ => respects_draftWrite _

theorem respects_predicateDeclaration (d : Domain) : Respects SameText (predicateDeclaration d) := by
  have hone : ∀ entry : String × Catalog Tree, Respects SameText (predicate entry.1 entry.2) := fun entry =>
    (respects_draftWrite _).bind fun _ => (Respects.each (fun _ => (respects_draftWrite _).bind fun _ =>
      (Respects.ofExcept _).bind fun _ => respects_draftWrite _) _).bind fun _ => respects_draftWrite _
  exact (respects_draftWrite _).bind fun _ => (Respects.each hone _).bind fun _ => respects_draftWrite _

theorem respects_problemDocument (name : String) (p : Problem) (t : Task) :
    Respects SameText (problemDocument name p t) := by
  have hinitial : ∀ agents state depth, Respects SameText (initialAt agents state depth) := by
    refine fun agents state depth => (respects_draftWrite _).bind fun _ => Respects.each (fun t => ?_) state
    refine (Respects.ofExcept _).bind fun text => ?_
    split
    · exact respects_draftWrite _
    · exact .ofPure ()
  have hgoal : ∀ t, Respects SameText (goal t) := fun t => (Respects.ofExcept _).bind fun _ => respects_draftWrite _
  refine (respects_draftWrite _).bind fun _ => (Respects.ofExcept _).bind fun d => (Respects.ofExcept _).bind fun _ =>
    (respects_draftWrite _).bind fun _ => (respects_draftWrite _).bind fun _ => Respects.bind ?_ fun _ => ?_
  · exact (respects_draftWrite _).bind fun _ => (respects_draftWrite _).bind fun _ =>
      (Respects.ofExcept _).bind fun n =>
      (Respects.each (fun i => hinitial _ _ _) _).bind fun _ => respects_draftWrite _
  · exact (respects_draftWrite _).bind fun _ => (Respects.each hgoal _).bind fun _ =>
      (Respects.each hgoal _).bind fun _ => respects_draftWrite _

/-- What the document of a domain says before its actions. -/
def declarations (name : String) (d : Domain) : Work Draft Unit := do
  Draft.write (header ++
    ";;;;;;;;;;;;;;;;;;;;    DOMAIN'S FEATURES    ;;;;;;;;;;;;;;;;;;;\n\n" ++
    "(define (domain " ++ name ++ ")\n\n")
  agentDeclaration d
  Draft.write "\t(:constants)\n\n"
  typeDeclaration d
  predicateDeclaration d
  Draft.write (rule ++ "\n\n" ++
    ";;;;;;;;;;;;;;;;;    ACTIONS' SPECIFICATIONS    ;;;;;;;;;;;;;;;;\n\n")

theorem respects_declarations (name : String) (d : Domain) : Respects SameText (declarations name d) :=
  (respects_draftWrite _).bind fun _ => (respects_agentDeclaration d).bind fun _ =>
    (respects_draftWrite _).bind fun _ =>
    (respects_typeDeclaration d).bind fun _ => (respects_predicateDeclaration d).bind fun _ => respects_draftWrite _

theorem domainDocument_eq (name : String) (d : Domain) : domainDocument name d = (do
    declarations name d
    actionsFrom 0 d.actions
    Draft.write (rule ++ "\n\n" ++ ")")) := by
  simp only [domainDocument, declarations, bind_assoc]

/-- How writing a document goes, and the text that it leaves. -/
def written (document : Work Draft Unit) (draft : Draft) : Except Fault Unit × String :=
  ((document.perform draft).1, (document.perform draft).2.text)

/-- What is printed of the actions of a domain, and the end of its document. -/
def blocks : List Action → Except Fault Unit × String
  | [] => (.ok (), rule ++ "\n\n" ++ ")")
  | a :: as => andThen (printed a) (blocks as)

theorem perform_print (i : Nat) (a : Action) (draft : Draft) : ∃ report actions,
    (Draft.print action (some i) a).perform draft =
      ((printed a).1, { text := draft.text ++ (printed a).2, report, actions }) := by
  rw [Draft.print, Work.perform_bind_ok (Work.perform_modify _ draft), Work.perform_ofExcept]
  exact ⟨_, _, rfl⟩

theorem written_actionsFrom (as : List Action) : ∀ (i : Nat) (draft : Draft),
    written (do actionsFrom i as; Draft.write (rule ++ "\n\n" ++ ")")) draft =
      andThen (.ok (), draft.text) (blocks as) := by
  induction as with
  | nil => exact fun _ _ => rfl
  | cons a as ih =>
    intro i draft
    obtain ⟨report, actions, hprint⟩ := perform_print i a draft
    rw [written, actionsFrom, bind_assoc, blocks, andThen, andThen]
    cases houtcome : (printed a).1 with
    | error f =>
      rw [houtcome] at hprint
      rw [Work.perform_bind_error hprint]
    | ok _ =>
      rw [houtcome] at hprint
      rw [Work.perform_bind_ok hprint]
      exact (ih (i + 1) _).trans (Prod.ext rfl String.append_assoc)

/-- **The document of a domain**: its declarations, and what is printed of its actions behind them. -/
theorem written_domainDocument (name : String) (d : Domain) (actions : List Action) :
    written (domainDocument name d) { actions } = andThen (written (declarations name d) {}) (blocks d.actions) := by
  obtain ⟨houtcome, htext⟩ := respects_declarations name d { actions } {} rfl
  rw [domainDocument_eq, written, written, andThen]
  rcases hrun : (declarations name d).perform { actions } with ⟨_ | _, draft⟩ <;> rw [hrun] at houtcome htext
  · rw [Work.perform_bind_error hrun, ← houtcome]
    exact Prod.ext rfl htext
  · rw [Work.perform_bind_ok hrun, ← houtcome]
    have hrest := written_actionsFrom d.actions 0 draft
    rw [written, andThen, htext] at hrest
    exact hrest

/-! ## Actions in a row -/

theorem Differ.andThen {r r' : Except Fault Unit × String} (h : Differ r r') {first : Except Fault Unit × String}
    (hfirst : first.1 = .ok ()) : Differ (Pdkb.andThen first r) (Pdkb.andThen first r') := by
  rw [Pdkb.andThen, Pdkb.andThen, hfirst]
  rcases h with htext | hfault
  · refine .inl fun heq => htext (String.toList_inj.1 ?_)
    have hlists := congrArg String.toList heq
    simpa [String.toList_append] using hlists
  · exact .inr hfault

section
variable {dialect : Dialect} {agents : Except Fault (List Tree)} {groups : List Tree}

/-- What printing leaves of an action without parameters: its guards are cleared where they are printed. -/
theorem cleared_of_leaves {a : Action} {sheet : Sheet} (ha : a.GuardsWritten Source.IsOnLine)
    (h : (MAp.action dialect agents groups a).perform { guards := a.guards } = (.ok (), sheet)) :
    AllWritten a.guards ∧ Cleared (MAp.ClearsAt dialect groups a) a.guards sheet.guards := by
  have hwritten : AllWritten a.guards := guardAt_of_forall ha ⟨.inr (by simp), .inr (by simp)⟩
  exact ⟨hwritten, MAp.clears_action dialect agents groups a _ _ _ hwritten h⟩

/-- None of the actions that are reached is disturbed. -/
def NoneDisturbed (dialect : Dialect) (groups : List Tree) (as : List Action) : Prop :=
  ∀ pre a post, as = pre ++ a :: post → (∀ b ∈ pre, (printed b).1 = .ok ()) → ¬ a.Disturbed dialect groups

theorem noneDisturbed_cons {a : Action} {as : List Action} : NoneDisturbed dialect groups (a :: as) ↔
    ¬ a.Disturbed dialect groups ∧ ((printed a).1 = .ok () → NoneDisturbed dialect groups as) := by
  constructor
  · intro h
    refine ⟨h [] a as rfl (by simp), fun ha pre b post hsplit hpre => ?_⟩
    exact h (a :: pre) b post (by rw [hsplit, List.cons_append]) (List.forall_mem_cons.2 ⟨ha, hpre⟩)
  · rintro ⟨ha, has⟩ pre b post hsplit hpre
    cases pre with
    | nil =>
      cases hsplit
      exact ha
    | cons c pre =>
      cases hsplit
      obtain ⟨hc, hpre⟩ := List.forall_mem_cons.1 hpre
      exact has hc pre b post rfl hpre

/-- **Actions are printed as before if none that is reached is disturbed, and otherwise they are not.** -/
theorem blocks_leaves {as left : List Action}
    (h : List.Forall₂ (Draft.Leaves (MAp.action dialect agents groups)) as left)
    (has : ∀ a ∈ as, a.GuardsWritten Source.IsOnLine) :
    (NoneDisturbed dialect groups as → blocks left = blocks as) ∧
      (¬ NoneDisturbed dialect groups as → Differ (blocks left) (blocks as)) := by
  induction h with
  | nil => exact ⟨fun _ => rfl, fun hnot => absurd (fun pre a post hsplit => by cases pre <;> cases hsplit) hnot⟩
  | @cons a a' as left hfirst _ ih =>
    obtain ⟨ha, has⟩ := List.forall_mem_cons.1 has
    obtain ⟨hrest, hrest'⟩ := ih has
    rw [noneDisturbed_cons, blocks, blocks]
    -- what is printed of the first action, if it is not disturbed
    have hsame : ¬ a.Disturbed dialect groups → printed a' = printed a := by
      intro hnot
      cases hfirst with
      | same hparameters => rfl
      | printed hparameters hrun => exact printed_eq (cleared_of_leaves ha hrun).2 hparameters hnot
    constructor
    · rintro ⟨hnot, hlater⟩
      rw [hsame hnot, andThen, andThen]
      cases houtcome : (printed a).1 with
      | error f => rfl
      | ok _ => rw [hrest (hlater houtcome)]
    · intro hnot
      by_cases hdisturbed : a.Disturbed dialect groups
      · cases hfirst with
        | same hparameters => exact absurd hdisturbed.parameters hparameters
        | printed hparameters hrun =>
          obtain ⟨hwritten, hcleared⟩ := cleared_of_leaves ha hrun
          exact printed_differs hcleared hwritten hdisturbed _ _
      · rw [not_and, Classical.not_imp] at hnot
        obtain ⟨hok, hlater⟩ := hnot hdisturbed
        rw [hsame hdisturbed]
        exact (hrest' hlater).andThen hok

theorem andThen_eq_ok {r next : Except Fault Unit × String} :
    (andThen r next).1 = .ok () ↔ r.1 = .ok () ∧ next.1 = .ok () := by
  unfold andThen
  split
  · rename_i hok
    simp [hok]
  · rename_i f hf
    simp [hf]

theorem blocks_eq_ok {as : List Action} : (blocks as).1 = .ok () ↔ ∀ a ∈ as, (printed a).1 = .ok () := by
  induction as with
  | nil => simp [blocks]
  | cons a as ih => rw [blocks, andThen_eq_ok, ih, List.forall_mem_cons]

end
end Pdkb

/-- None of the actions that are reached when a domain is written in PDKB is disturbed: an action is reached if all goes
well before it. -/
def Domain.Undisturbed (dialect : Dialect) (name : String) (d : Domain) : Prop :=
  ∀ pre a post, d.actions = pre ++ a :: post →
    ((Pdkb.domainDocument name { d with actions := pre }).perform {}).1 = .ok () → ¬ a.Disturbed dialect d.groups

namespace Pdkb

theorem undisturbed_iff {dialect : Dialect} {name : String} {d : Domain} : d.Undisturbed dialect name ↔
    ((written (declarations name d) {}).1 = .ok () → NoneDisturbed dialect d.groups d.actions) := by
  have hreached : ∀ pre : List Action, ((domainDocument name { d with actions := pre }).perform {}).1 = .ok () ↔
      (written (declarations name d) {}).1 = .ok () ∧ ∀ b ∈ pre, (printed b).1 = .ok () := by
    intro pre
    have hwritten := written_domainDocument name { d with actions := pre } []
    rw [← blocks_eq_ok, ← andThen_eq_ok]
    exact Eq.congr_left (congrArg Prod.fst hwritten)
  unfold Domain.Undisturbed NoneDisturbed
  simp only [hreached]
  constructor
  · exact fun h hok pre a post hsplit hpre => h pre a post hsplit ⟨hok, hpre⟩
  · exact fun h pre a post hsplit hall => h hall.1 pre a post hsplit hall.2

/-- **The document of a domain is as before if it is undisturbed, and otherwise it is not.** -/
theorem domainDocument_leaves (name : String) {dialect : Dialect} {d : Domain} {left : List Action}
    (h : List.Forall₂ (Draft.Leaves (MAp.action dialect d.agents d.groups)) d.actions left)
    (hd : d.GuardsWritten Source.IsOnLine) :
    (d.Undisturbed dialect name → written (domainDocument name { d with actions := left }) { actions := left } =
      written (domainDocument name d) { actions := d.actions }) ∧
    (¬ d.Undisturbed dialect name →
      Differ (written (domainDocument name { d with actions := left }) { actions := left })
        (written (domainDocument name d) { actions := d.actions })) := by
  obtain ⟨hsame, hdiffer⟩ := blocks_leaves h hd
  have hleft : written (domainDocument name { d with actions := left }) { actions := left } =
      andThen (written (declarations name d) {}) (blocks left) := written_domainDocument name _ left
  rw [hleft, written_domainDocument, undisturbed_iff]
  constructor
  · intro hundisturbed
    unfold andThen
    cases hdeclared : (written (declarations name d) {}).1 with
    | error f => rfl
    | ok _ => rw [hsame (hundisturbed hdeclared)]
  · intro hnot
    rw [Classical.not_imp] at hnot
    exact (hdiffer hnot.2).andThen hnot.1

theorem problemDocument_actions {t : Task} {d : Domain} (h : t.domain = some d) (name : String) (p : Problem)
    (actions : List Action) :
    problemDocument name p { t with domain := some { d with actions } } = problemDocument name p t := by
  rw [problemDocument, problemDocument, Task.needDomain, Task.needDomain, h]
  rfl

end Pdkb

/-! ## Sessions -/

namespace Session

/-- The path of a document in PDKB. -/
def pdkbPath (folder name : String) : String := folder ++ "/" ++ name ++ ".pdkbpddl"

theorem pdkbPath_inj {folder n q : String} (h : pdkbPath folder n = pdkbPath folder q) : n = q := by
  have hlists := congrArg String.toList h
  simp only [pdkbPath, String.toList_append, List.append_assoc, List.append_cancel_left_eq, List.append_cancel_right_eq]
    at hlists
  exact String.toList_inj.1 hlists

theorem pdkbPath_ne_extension (folder name path : String) (dialect : Dialect) :
    pdkbPath folder name ≠ path ++ extension dialect := by
  intro h
  have hlast := congrArg (fun text => text.toList.getLast?) h
  cases dialect <;> simp [pdkbPath, extension, String.toList_append, List.getLast?_cons] at hlast

/-- Runs that leave the same documents in PDKB in a folder, or stop for the same reason. -/
def SamePdkb (folder : String) (r r' : Except Fault Unit × Session) : Prop :=
  r.1 = r'.1 ∧ ∀ name, r.2.files.get? (pdkbPath folder name) = r'.2.files.get? (pdkbPath folder name)

section
variable {s : Session} {d : Domain} {p : Problem} {n q : String}

theorem perform_writePdkbDomain (folder : String) (hd : s.task.domain = some d) (hn : d.name = .word n) :
    (writePdkbDomain folder).perform s = (writeFile (pdkbPath folder n) (Pdkb.domainDocument n d)).perform s := by
  rw [writePdkbDomain, Work.perform_bind_ok ((perform_domainName hd).trans (by rw [hn]; rfl)),
    Work.perform_bind_ok (Work.perform_get s), Task.needDomain, hd]
  rfl

theorem perform_writePdkbProblem (folder : String) (hp : s.task.problem = some p) (hq : p.name = .word q) :
    (writePdkbProblem folder).perform s =
      (writeFile (pdkbPath folder q) (Pdkb.problemDocument q p s.task)).perform s := by
  have hneed : s.task.needProblem = .ok p := by rw [Task.needProblem, hp]
  rw [writePdkbProblem, Work.perform_bind_ok ((perform_problemName hp).trans (by rw [hq]; rfl)),
    Work.perform_bind_ok (Work.perform_get s)]
  simp only [hneed]
  rfl

/-- Writing the problem in PDKB does not depend on the guards of the task. -/
theorem writePdkbProblem_eq (folder : String) {s' : Session} {actions : List Action} (hd : s.task.domain = some d)
    (hp : s.task.problem = some p) (hq : p.name = .word q)
    (hs' : s'.task = { s.task with domain := some { d with actions } }) :
    ((writePdkbProblem folder).perform s').1 = (Pdkb.written (Pdkb.problemDocument q p s.task) {}).1 ∧
      ((writePdkbProblem folder).perform s').2.files =
        s'.files.insert (pdkbPath folder q) (Pdkb.written (Pdkb.problemDocument q p s.task) {}).2 := by
  have hd' : s'.task.domain = some { d with actions } := by rw [hs']
  have hp' : s'.task.problem = some p := by rw [hs', hp]
  rw [perform_writePdkbProblem folder hp' hq, perform_writeFile hd', hs', Pdkb.problemDocument_actions hd]
  obtain ⟨houtcome, htext⟩ := Pdkb.respects_problemDocument q p s.task { actions } {} rfl
  exact ⟨houtcome, congrArg _ htext⟩

/-- The files when a task has been written in PDKB. The problem is written if all goes well with the domain. -/
def pdkbFiles (folder n q : String) (domain problem : Except Fault Unit × String) (files : Catalog String) :
    Catalog String :=
  match domain.1 with
  | .ok () => (files.insert (pdkbPath folder n) domain.2).insert (pdkbPath folder q) problem.2
  | .error _ => files.insert (pdkbPath folder n) domain.2

/-- **How writing a task in PDKB goes, and the files that it leaves.** -/
theorem writePdkb_eq (folder : String) (hd : s.task.domain = some d) (hp : s.task.problem = some p)
    (hn : d.name = .word n) (hq : p.name = .word q) :
    ((writePdkb folder).perform s).1 = (Pdkb.andThen (Pdkb.written (Pdkb.domainDocument n d) { actions := d.actions })
        (Pdkb.written (Pdkb.problemDocument q p s.task) {})).1 ∧
      ((writePdkb folder).perform s).2.files = pdkbFiles folder n q
        (Pdkb.written (Pdkb.domainDocument n d) { actions := d.actions })
        (Pdkb.written (Pdkb.problemDocument q p s.task) {}) s.files := by
  have hdomain := (perform_writePdkbDomain folder hd hn).trans (perform_writeFile hd)
  rw [writePdkb, Pdkb.andThen, pdkbFiles, Pdkb.written]
  rcases houtcome : ((Pdkb.domainDocument n d).perform { actions := d.actions }).1 with f | _
  · rw [houtcome] at hdomain
    rw [Work.perform_bind_error hdomain]
    exact ⟨rfl, rfl⟩
  · rw [houtcome] at hdomain
    rw [Work.perform_bind_ok hdomain]
    exact writePdkbProblem_eq folder hd hp hq rfl

/-- What writing a task in PDKB leaves at the path of a document. -/
theorem get?_pdkbFiles (folder name : String) (domain problem : Except Fault Unit × String) (files : Catalog String) :
    (pdkbFiles folder n q domain problem files).get? (pdkbPath folder name) =
      if q = name ∧ domain.1 = .ok () then some problem.2
      else if n = name then some domain.2
      else files.get? (pdkbPath folder name) := by
  have hpath : ∀ other, pdkbPath folder other = pdkbPath folder name ↔ other = name := fun _ =>
    ⟨pdkbPath_inj, congrArg _⟩
  unfold pdkbFiles
  split
  · rename_i hok
    simp only [Catalog.get?_insert, hpath, hok, and_true]
  · rename_i f hf
    simp [Catalog.get?_insert, hpath, hf]

end

/-- **Writing in PDKB after writing in mAp.** The documents are those that the task had before it was written in mAp,
and if there are none the reason is the same, exactly if none of the actions that are reached is disturbed. (A domain
and a problem of one name share a file, and the problem is written last.) -/
theorem writePdkb_after_writeMAp {folder : String} (pdkbFolder : String) {s s' : Session} (hparsed : s.Parsed)
    (h : (writeMAp folder).perform s = (.ok (), s')) :
    ∃ d p n q, s.task.domain = some d ∧ s.task.problem = some p ∧ d.name = .word n ∧ p.name = .word q ∧
      (d.Undisturbed s.task.dialect n →
        SamePdkb pdkbFolder ((writePdkb pdkbFolder).perform s') ((writePdkb pdkbFolder).perform s)) ∧
      (n ≠ q → SamePdkb pdkbFolder ((writePdkb pdkbFolder).perform s') ((writePdkb pdkbFolder).perform s) →
        d.Undisturbed s.task.dialect n) := by
  obtain ⟨d, p, n, q, text, left, hd, hp, hn, hq, hleaves, htask, hfiles⟩ := writeMAp_leaves h
  have hd' : s'.task.domain = some { d with actions := left } := by rw [htask]
  have hp' : s'.task.problem = some p := by rw [htask, hp]
  obtain ⟨houtcome, hlater⟩ := writePdkb_eq pdkbFolder hd' hp' hn hq
  obtain ⟨houtcome₀, hlater₀⟩ := writePdkb_eq pdkbFolder hd hp hn hq
  obtain ⟨hsame, hdiffer⟩ := Pdkb.domainDocument_leaves n hleaves (hparsed.writtenGuards d hd)
  rw [htask, Pdkb.problemDocument_actions hd] at houtcome hlater
  refine ⟨d, p, n, q, hd, hp, hn, hq, fun hundisturbed => ?_, fun hne hsamePdkb => ?_⟩
  · rw [hsame hundisturbed] at houtcome hlater
    refine ⟨houtcome.trans houtcome₀.symm, fun name => ?_⟩
    rw [hlater, hlater₀, get?_pdkbFiles, get?_pdkbFiles, hfiles, Catalog.get?_insert, mApPath,
      if_neg (Ne.symm (pdkbPath_ne_extension pdkbFolder name _ _))]
  · -- otherwise the documents of the domain differ, in their texts or in what stops them
    by_contra hdisturbed
    rcases hdiffer hdisturbed with htext | hfault
    · have hget := hsamePdkb.2 n
      simp only [hlater, hlater₀, get?_pdkbFiles, hne.symm, false_and, if_false, if_true, Option.some.injEq] at hget
      exact htext hget
    · obtain ⟨f, f', hf, hf', hne⟩ := hfault
      have heq := (houtcome.symm.trans hsamePdkb.1).trans houtcome₀
      rw [Pdkb.andThen, Pdkb.andThen, hf, hf'] at heq
      exact hne (Except.error.inj heq)

/-- An action that an agent observes, and every agent: the clause names one and is quantified. -/
def announced : Session := ofTexts .levels
  "(define (domain d) (:predicates (p)) (:action go :effect (p) :observers (forall (?x - agent) (?x a))))"
  "(define (problem q) (:domain d) (:agents a) (:init (p)) (:goal (p)))"

theorem writePdkb_after_writeMAp_announced : Parsed announced ∧
    ∃ s', (writeMAp "out/efp").perform announced = (.ok (), s') ∧
      ¬ SamePdkb "out/pdkb" ((writePdkb "out/pdkb").perform s') ((writePdkb "out/pdkb").perform announced) := by
  have hparsed : Parsed announced := parsed_ofTexts _ _ _
  -- `go` is reached and disturbed
  have hrun : ((writeMAp "out/efp").perform announced).1.isOk = true ∧
      announced.task.problem.any (·.name.isWord "q") = true ∧
      (announced.task.domain.any fun d => d.name.isWord "d" &&
        d.actions.head?.any (fun a => decide (a.Disturbed announced.task.dialect d.groups)) &&
        ((Pdkb.domainDocument "d" { d with actions := [] }).perform {}).1.isOk) = true := by decide +kernel
  obtain ⟨hok, hnamed, hfirst⟩ := hrun
  refine ⟨hparsed, _, Work.ok_of_isOk hok, fun hsame => ?_⟩
  obtain ⟨d, p, n, q, hd, hp, hn, hq, -, hundisturbed⟩ :=
    writePdkb_after_writeMAp "out/pdkb" hparsed (Work.ok_of_isOk hok)
  rw [hp, Option.any_some, hq] at hnamed
  simp only [hd, Option.any_some, hn, Bool.and_eq_true, Option.any_eq_true] at hfirst
  obtain ⟨⟨hname, a, hhead, hdisturbed⟩, hdeclared⟩ := hfirst
  obtain rfl : n = "d" := by simpa [Tree.isWord] using hname
  obtain rfl : q = "q" := by simpa [Tree.isWord] using hnamed
  obtain ⟨post, hactions⟩ := List.head?_eq_some_iff.1 hhead
  have hreached := congrArg Prod.fst (Work.ok_of_isOk hdeclared)
  exact hundisturbed (by decide) hsame [] a post hactions hreached (of_decide_eq_true hdisturbed)

end Session
end Epistemic
