import Epistemic.Proofs.GroundActions
import Epistemic.Proofs.OperatorText
import Epistemic.Proofs.GuardCopies
/-!
# Levels of observation as groups

An action whose observers are told apart by level can be written with two groups, one for each level.  Both ways have
the same ground actions, and the same is told of the observers, but for the verb (`Action.levels_agree_with_groups`).
-/
namespace Epistemic

open Work (perform_bind_eq_ok)

/-! ## Runs that mirror each other -/

namespace Work

variable {σ τ α β γ δ : Type} {f : σ → τ} {h : α → β}

/-- Steps that do the same on the image of a state, with the image of the result. -/
def Mirrors (f : σ → τ) (h : α → β) (w : Work σ α) (w' : Work τ β) : Prop :=
  ∀ s, w'.perform (f s) = ((w.perform s).1.map h, f (w.perform s).2)

theorem Mirrors.refl {w : Work σ α} : Mirrors id id w w := by
  intro s
  rcases hrun : w.perform s with ⟨_ | a, t⟩ <;> exact hrun

theorem Mirrors.ofPure {a : α} {b : β} (hb : b = h a) : Mirrors f h (pure a) (pure b) := by
  intro s
  rw [hb]
  rfl

theorem Mirrors.ofExcept {r : Except Fault α} {r' : Except Fault β} (hr : r' = r.map h) :
    Mirrors f h (ofExcept r) (ofExcept r') := by
  intro s
  rw [perform_ofExcept, perform_ofExcept, hr]

theorem Mirrors.same (r : Except Fault α) : Mirrors f id (Work.ofExcept r : Work σ α) (Work.ofExcept r) :=
  .ofExcept (congrFun Except.map_id r).symm

theorem Mirrors.bind {w : Work σ α} {w' : Work τ β} {next : α → Work σ γ} {next' : β → Work τ δ} {k : γ → δ}
    (hw : Mirrors f h w w') (hnext : ∀ a, Mirrors f k (next a) (next' (h a))) :
    Mirrors f k (w >>= next) (w' >>= next') := by
  intro s
  have hs := hw s
  rcases hrun : w.perform s with ⟨_ | a, t⟩ <;> rw [hrun] at hs
  · rw [perform_bind_error hrun, perform_bind_error hs]
    rfl
  · rw [perform_bind_ok hrun, perform_bind_ok hs]
    exact hnext a t

theorem Mirrors.each {g : γ → Work σ Unit} {g' : γ → Work τ Unit} (hg : ∀ c, Mirrors f id (g c) (g' c)) :
    ∀ cs, Mirrors f id (each g cs) (each g' cs)
  | [] => fun _ => rfl
  | c :: cs => (hg c).bind fun _ => Mirrors.each hg cs

end Work

/-! ## Two groups -/

/-- The groups that stand for the levels. -/
def levelGroups : List Tree := [.word "fully", .word "partially"]

/-- Observers by level, as the members of two groups. -/
def Observers.inGroups {ε : Type} : Observers ε → Observers ε
  | levels full inPart => groups [("fully", full), ("partially", inPart)]
  | groups members => groups members

/-- The action with its levels of observation as groups. -/
def Action.inGroups (a : Action) : Action := { a with observers := a.observers.inGroups }

/-- The ground action with its levels of observation as groups. -/
def GroundAction.inGroups (G : GroundAction) : GroundAction := { G with action := G.action.inGroups }

/-- What has been ground so far, with levels of observation as groups. -/
def Grounding.inGroups (g : Grounding) : Grounding := { g with actions := g.actions.map GroundAction.inGroups }

/-- Observers that are told apart by level. -/
def Action.HasLevels (a : Action) : Prop := ∃ full inPart, a.observers = .levels full inPart

theorem groupEntries_fully (full inPart : List Entry) :
    Action.groupEntries [("fully", full), ("partially", inPart)] (.word "fully") = .ok full := by
  simp [Action.groupEntries, Catalog.get?]

theorem groupEntries_partially (full inPart : List Entry) :
    Action.groupEntries [("fully", full), ("partially", inPart)] (.word "partially") = .ok inPart := by
  simp [Action.groupEntries, Catalog.get?]

/-! ## Grounding -/

/-- A last step on a ground action that does not look at its observers. -/
structure LeavesObservers (finish : Action → Except Fault Action) : Prop where
  observers {a done : Action} : finish a = .ok done → done.observers = a.observers
  inGroups (a : Action) : finish a.inGroups = (finish a).map Action.inGroups

theorem leavesObservers_ok : LeavesObservers .ok where
  observers h := by
    cases h
    rfl
  inGroups _ := rfl

theorem leavesObservers_underGroundName : LeavesObservers Action.underGroundName where
  observers {a done} h := by
    unfold Action.underGroundName at h
    cases hname : a.groundName with
    | error e =>
      rw [hname] at h
      cases h
    | ok name =>
      rw [hname] at h
      cases h
      rfl
  inGroups a := by
    have hname : a.inGroups.groundName = a.groundName := rfl
    rw [Action.underGroundName, Action.underGroundName, hname]
    cases a.groundName <;> rfl

theorem leavesObservers_finish {finish : Action → Except Fault Action}
    (h : finish = .ok ∨ finish = Action.underGroundName) : LeavesObservers finish := by
  rcases h with rfl | rfl
  · exact leavesObservers_ok
  · exact leavesObservers_underGroundName

theorem Observers.addTo_inGroups (guards : List Guard) (o : Observers Clause) :
    o.inGroups.addTo guards = ((o.addTo guards).1, (o.addTo guards).2.inGroups) := by
  cases o <;> rfl

theorem Action.withClauses_inGroups (a : Action) (adds deletes : List Clause) (o : Observers Clause) :
    a.inGroups.withClauses adds deletes o.inGroups = (a.withClauses adds deletes o).inGroups := by
  simp only [withClauses, Observers.addTo_inGroups]
  rfl

section
variable {a : Action} (ha : a.HasLevels) (groups : List Tree) (σ : Assignment)
include ha

theorem Grounding.mirrors_groundObservers :
    (groundObservers groups σ a).Mirrors id Observers.inGroups (groundObservers levelGroups σ a.inGroups) := by
  obtain ⟨full, inPart, ho⟩ := ha
  have ho' : a.inGroups.observers = .groups [("fully", full), ("partially", inPart)] := by
    rw [Action.inGroups, ho]
    rfl
  unfold groundObservers
  rw [ho, ho']
  simp only [levelGroups, groundGroups, groundGroup, groupEntries_fully, groupEntries_partially, Work.ofExcept,
    pure_bind, bind_assoc]
  exact Work.Mirrors.refl.bind fun full => Work.Mirrors.refl.bind fun inPart => .ofPure rfl

/-- **One assignment gives the same ground action.** -/
theorem Action.mirrors_groundWith :
    (a.groundWith groups σ).Mirrors id Action.inGroups (a.inGroups.groundWith levelGroups σ) := by
  unfold groundWith
  refine Work.Mirrors.refl.bind fun positive => Work.Mirrors.refl.bind fun negative =>
    Work.Mirrors.refl.bind fun adds => Work.Mirrors.refl.bind fun deletes =>
    (Grounding.mirrors_groundObservers ha groups σ).bind fun observers => .ofPure ?_
  exact Action.withClauses_inGroups { a with
    parameters := σ.objects, positivePreconditions := positive, negativePreconditions := negative
    derivation := .list [], explicitEffect := .list [] } adds deletes observers

end

theorem Action.HasLevels.of_groundWith {a ground : Action} (ha : a.HasLevels) {groups : List Tree} {σ : Assignment}
    {l l' : Fluents} (h : (a.groundWith groups σ).perform l = (.ok ground, l')) : ground.HasLevels := by
  obtain ⟨full, inPart, ho⟩ := ha
  obtain ⟨_, _, _, h⟩ := perform_bind_eq_ok.1 h
  obtain ⟨_, _, _, h⟩ := perform_bind_eq_ok.1 h
  obtain ⟨_, _, _, h⟩ := perform_bind_eq_ok.1 h
  obtain ⟨_, _, _, h⟩ := perform_bind_eq_ok.1 h
  obtain ⟨observers, _, hobservers, h⟩ := perform_bind_eq_ok.1 h
  unfold Grounding.groundObservers at hobservers
  rw [ho] at hobservers
  obtain ⟨_, _, _, hobservers⟩ := perform_bind_eq_ok.1 hobservers
  obtain ⟨_, _, _, hobservers⟩ := perform_bind_eq_ok.1 hobservers
  cases hobservers
  cases h
  exact ⟨_, _, rfl⟩

theorem Grounding.mirrors_recording {w w' : Work Fluents Action} (h : w.Mirrors id Action.inGroups w') :
    (recording w).Mirrors Grounding.inGroups Action.inGroups (recording w') := by
  intro g
  have hrun : w'.perform g.inGroups.fluents = _ := h g.fluents
  rw [perform_recording, perform_recording, hrun]
  rfl

theorem Grounding.mirrors_add (G : GroundAction) : (add G).Mirrors Grounding.inGroups id (add G.inGroups) :=
  fun _ => rfl

section
variable {a : Action} {finish : Action → Except Fault Action} (hfinish : LeavesObservers finish)
include hfinish

/-- **Grounding gives the same ground actions in the same order.** -/
theorem Action.mirrors_ground (ha : a.HasLevels) (objects types : Hierarchy) (distinct : Bool) (groups : List Tree)
    (place : Nat) : (a.ground finish objects types distinct groups place).Mirrors Grounding.inGroups id
      (a.inGroups.ground finish objects types distinct levelGroups place) := by
  have hadd : ∀ (b : Action) (place : Option Nat), (do
      Grounding.add { action := ← Work.ofExcept (finish b), place }).Mirrors Grounding.inGroups id (do
      Grounding.add { action := ← Work.ofExcept (finish b.inGroups), place }) := fun b place =>
    (Work.Mirrors.ofExcept (hfinish.inGroups b)).bind fun done => Grounding.mirrors_add ⟨done, place⟩
  unfold ground
  by_cases hparameters : a.parameters.isEmpty = true
  · rw [if_pos hparameters, if_pos (show a.inGroups.parameters.isEmpty = true from hparameters)]
    exact hadd a (some place)
  · rw [if_neg hparameters, if_neg (show ¬a.inGroups.parameters.isEmpty = true from hparameters)]
    refine (Work.Mirrors.same _).bind fun ranges => .each (fun choice => (Work.Mirrors.same _).bind fun kept => ?_) _
    cases kept with
    | false => exact .ofPure rfl
    | true =>
      exact (Grounding.mirrors_recording (Action.mirrors_groundWith ha groups _)).bind fun ground => hadd ground none

/-- **A ground action of an action with levels has levels.** -/
theorem Action.Yields.hasLevels {objects types : Hierarchy} {groups : List Tree} {known : Fluents} {G : GroundAction}
    (h : a.Yields finish objects types groups known G) (ha : a.HasLevels) : G.action.HasLevels := by
  have hdone : ∀ {b done : Action}, finish b = .ok done → b.HasLevels → done.HasLevels := by
    rintro b done h ⟨full, inPart, ho⟩
    exact ⟨full, inPart, (hfinish.observers h).trans ho⟩
  cases h with
  | itself place hparameters hok => exact hdone hok ha
  | filled hparameters hranges hchoice hground hknown hok => exact hdone hok (ha.of_groundWith hground)

end

/-! ## What is told of observers -/

namespace Text

/-- **A word between blanks is replaced where it stands first.**  It cannot begin inside an earlier one, because no
blank stands in it. -/
theorem replaceAll_lone {w : List Char} (hw : ' ' ∉ w) {new rest : List Char} : ∀ {before : List Char},
    ¬ ' ' :: (w ++ [' ']) <:+: before ++ [' '] →
      replaceAll (' ' :: (w ++ [' '])) new (before ++ (' ' :: (w ++ [' ']) ++ rest)) =
        before ++ (new ++ replaceAll (' ' :: (w ++ [' '])) new rest)
  | [], _ => replaceAll_piece_append new rest (by simp)
  | c :: before, h => by
    have hno : ¬ ' ' :: (w ++ [' ']) <+: c :: (before ++ (' ' :: (w ++ [' ']) ++ rest)) := by
      intro hp
      obtain ⟨rfl, hw'⟩ := List.cons_prefix_cons.1 hp
      have hlength := (prefix_of_prefix_append_cons hw ((List.prefix_append w [' ']).trans hw')).length_le
      have hbefore : before ++ [' '] <+: before ++ (' ' :: (w ++ [' ']) ++ rest) :=
        ⟨w ++ [' '] ++ rest, by simp⟩
      have hshort := List.prefix_of_prefix_length_le hw' hbefore (by simpa using hlength)
      exact h (List.cons_prefix_cons.2 ⟨rfl, hshort⟩).isInfix
    have hrest : ¬ ' ' :: (w ++ [' ']) <:+: before ++ [' '] := fun hi =>
      h (hi.trans (List.suffix_cons c (before ++ [' '])).isInfix)
    rw [List.cons_append, replaceAll_cons_kept new hno, replaceAll_lone hw hrest]
    rfl

end Text

namespace MAp

/-- A statement about an observer: who it is about, and what stands behind the verb. -/
structure Told where
  who : String
  behind : String

/-- Statements with one verb, one behind the other. -/
def told (verb : String) (ts : List Told) : String := String.join (ts.map fun t => t.who ++ verb ++ t.behind)

theorem told_append (verb : String) (ts us : List Told) : told verb (ts ++ us) = told verb ts ++ told verb us := by
  rw [told, List.map_append, String.join_append]
  rfl

/-- Steps that write something, whatever stands on the sheet before. -/
def Appends {α : Type} (w : Work Sheet α) : Prop :=
  ∀ guards, ∃ outcome new left, ∀ text report,
    w.perform ⟨text, report, guards⟩ = (outcome, ⟨text ++ new, report, left⟩)

namespace Appends

variable {α β : Type}

theorem ofExcept (r : Except Fault α) : Appends (Work.ofExcept r) := by
  intro guards
  refine ⟨r, "", guards, fun text report => ?_⟩
  rw [Work.perform_ofExcept, String.append_empty]

theorem write (s : String) : Appends (Sheet.write s) := fun guards => ⟨.ok (), s, guards, fun _ _ => rfl⟩

theorem writePrinted (p : PrintedGuard) : Appends (Sheet.writePrinted p) := fun guards =>
  ⟨p.outcome, p.text, guards, fun _ _ => Sheet.perform_writePrinted p _⟩

theorem printGuard (print : Guard → PrintedGuard) (i : Nat) : Appends (Sheet.printGuard print i) := fun guards =>
  let p := print (guardAt guards i)
  ⟨p.outcome, p.text, guards.set i p.left, fun _ _ => Sheet.perform_printGuard print i _⟩

theorem bind {w : Work Sheet α} {next : α → Work Sheet β} (hw : Appends w) (hnext : ∀ a, Appends (next a)) :
    Appends (w >>= next) := by
  intro guards
  obtain ⟨outcome, new, mid, hrun⟩ := hw guards
  cases outcome with
  | error e => exact ⟨.error e, new, mid, fun text report => Work.perform_bind_error (hrun text report)⟩
  | ok a =>
    obtain ⟨outcome, more, left, hrun'⟩ := hnext a mid
    refine ⟨outcome, new ++ more, left, fun text report => ?_⟩
    rw [Work.perform_bind_ok (hrun text report), hrun', String.append_assoc]

theorem guard_bind {i : Nat} {next : Guard → Work Sheet α} (hnext : ∀ g, Appends (next g)) :
    Appends (Sheet.guard i >>= next) := fun guards => hnext (guardAt guards i) guards

end Appends

/-- Steps that tell the same of observers of an action with every verb, and stop at the same place. -/
def Tells (name : String) (w : String → Work Sheet Unit) : Prop :=
  ∀ guards, ∃ outcome ts left, (∀ t ∈ ts, name.toList <+: t.behind.toList) ∧ ∀ verb text report,
    (w verb).perform ⟨text, report, guards⟩ = (outcome, ⟨text ++ told verb ts, report, left⟩)

section
variable {name : String} {v w : String → Work Sheet Unit}

theorem Tells.ofExcept (r : Except Fault Unit) : Tells name fun _ => Work.ofExcept r := by
  intro guards
  refine ⟨r, [], guards, by simp, fun verb text report => ?_⟩
  rw [Work.perform_ofExcept, told, List.map_nil, String.join_nil, String.append_empty]

/-- What is told first and then, where the two may have verbs of their own. -/
theorem Tells.both (hv : Tells name v) (hw : Tells name w) (guards : List Guard) :
    ∃ outcome ts us left, (∀ t ∈ ts ++ us, name.toList <+: t.behind.toList) ∧ ∀ x y text report,
      (v x >>= fun _ => w y).perform ⟨text, report, guards⟩ =
        (outcome, ⟨text ++ told x ts ++ told y us, report, left⟩) := by
  obtain ⟨outcome, ts, mid, hts, hrun⟩ := hv guards
  cases outcome with
  | error e =>
    refine ⟨.error e, ts, [], mid, by simpa using hts, fun x y text report => ?_⟩
    rw [Work.perform_bind_error (hrun x text report), told, told, List.map_nil, String.join_nil, String.append_empty]
  | ok =>
    obtain ⟨outcome, us, left, hus, hrun'⟩ := hw mid
    refine ⟨outcome, ts, us, left, fun t ht => (List.mem_append.1 ht).elim (hts t) (hus t), fun x y text report => ?_⟩
    rw [Work.perform_bind_ok (hrun x text report), hrun']

theorem Tells.bind (hv : Tells name v) (hw : Tells name w) : Tells name fun verb => v verb >>= fun _ => w verb := by
  intro guards
  obtain ⟨outcome, ts, us, left, hnames, hrun⟩ := hv.both hw guards
  refine ⟨outcome, ts ++ us, left, hnames, fun verb text report => ?_⟩
  rw [hrun, told_append, String.append_assoc]

theorem Tells.each {α : Type} {f : α → String → Work Sheet Unit} (hf : ∀ a, Tells name (f a)) :
    ∀ as, Tells name fun verb => Work.each (f · verb) as
  | [] => .ofExcept (.ok ())
  | a :: as => (hf a).bind (Tells.each hf as)

theorem Tells.ofExcept_bind {α : Type} (r : Except Fault α) {f : α → String → Work Sheet Unit}
    (hf : ∀ a, Tells name (f a)) : Tells name fun verb => Work.ofExcept r >>= (f · verb) := by
  cases r with
  | error e => exact .ofExcept (.error e)
  | ok a => exact hf a

/-- **A statement tells one thing.** -/
theorem Tells.ofAppends {w : Work Sheet Unit} (hw : Appends w) (who : String) :
    Tells name fun verb => Sheet.write (who ++ verb ++ name) >>= fun _ => w := by
  intro guards
  obtain ⟨outcome, new, left, hrun⟩ := hw guards
  refine ⟨outcome, [⟨who, name ++ new⟩], left, by simp, fun verb text report => ?_⟩
  rw [Sheet.perform_write_bind, hrun]
  simp [told, String.append_assoc]

end

theorem tells_quantifiedObserver (name : String) (e : Entry) (agent : Tree) :
    Tells name fun verb => quantifiedObserver name verb e agent := by
  simp only [quantifiedObserver_eq]
  refine Tells.ofExcept_bind _ fun out => ?_
  cases out with
  | true => exact .ofExcept (.ok ())
  | false =>
    cases agent with
    | list ts => exact .ofExcept (.error .listForName)
    | word agent =>
      simp only [Bool.false_eq_true, if_false, Sheet.nameOf, pure_bind]
      refine .ofAppends ?_ agent
      refine Appends.guard_bind fun g => (Appends.ofExcept _).bind fun g => ?_
      exact (Appends.writePrinted (guard g)).bind fun _ => .write _

/-- **The observers of clauses are told with every verb alike.** -/
theorem tells_observers (agents : Except Fault (List Tree)) (name : String) (es : List Entry) :
    Tells name fun verb => observers agents name verb es := by
  refine Tells.each (fun e => Tells.each (fun ag => ?_) e.body.items) es
  unfold observer
  by_cases hag : isMarked ag = true
  · simp only [if_pos hag]
    exact Tells.ofExcept_bind agents fun known => Tells.each (tells_quantifiedObserver name e) known
  · simp only [if_neg hag]
    exact .ofAppends ((Appends.printGuard guard e.guard).bind fun _ => .write _) ag.shown

/-! ## The verb exchanged in the text -/

/-- The verb stands nowhere but where a statement has it. -/
def Lone (verb : String) : (before : List Char) → List Told → Prop
  | before, [] => ¬verb.toList <:+: before
  | before, t :: ts => ¬verb.toList <:+: before ++ t.who.toList ++ [' '] ∧ Lone verb t.behind.toList ts

theorem replaceAll_told (verb : String) (w : List Char) (hverb : verb.toList = ' ' :: (w ++ [' '])) (hw : ' ' ∉ w)
    (new : String) : ∀ (ts : List Told) (before : List Char), Lone verb before ts →
      Text.replaceAll verb.toList new.toList (before ++ (told verb ts).toList) = before ++ (told new ts).toList
  | [], before, h => by
    simpa [told] using Text.replaceAll_of_not_infix new.toList h
  | t :: ts, before, h => by
    obtain ⟨hbefore, hrest⟩ := h
    have ih := replaceAll_told verb w hverb hw new ts t.behind.toList hrest
    have hshape : ∀ v, before ++ (told v (t :: ts)).toList =
        before ++ t.who.toList ++ (v.toList ++ (t.behind.toList ++ (told v ts).toList)) := by
      intro v
      simp [told]
    rw [hverb] at hbefore ih
    rw [hshape, hshape, hverb, Text.replaceAll_lone hw hbefore, ih]

end MAp

/-- Two ways to tell of the observers of an action, on one sheet: both stop alike and leave the same guards, and the
same is said of the same agents, but for the verbs. -/
def MAp.TellAlike (name : String) (sheet : Sheet) (byLevel byGroup : Except Fault Unit × Sheet) : Prop :=
  byGroup.1 = byLevel.1 ∧ byGroup.2.guards = byLevel.2.guards ∧ byGroup.2.report = byLevel.2.report ∧
  ∃ full inPart : List MAp.Told, (∀ t ∈ full ++ inPart, name.toList <+: t.behind.toList) ∧
    byLevel.2.text = sheet.text ++ told " observes " full ++ told " aware_of " inPart ∧
    byGroup.2.text = sheet.text ++ told " in_group fully of " full ++ told " in_group partially of " inPart ∧
    (Lone " observes " [] full → Lone " aware_of " [] inPart → byGroup.2.text.toList = sheet.text.toList ++
      Text.replaceAll " observes ".toList " in_group fully of ".toList (told " observes " full).toList ++
      Text.replaceAll " aware_of ".toList " in_group partially of ".toList (told " aware_of " inPart).toList)

theorem MAp.tellAlike_inGroups {a : Action} (ha : a.HasLevels) (agents : Except Fault (List Tree)) (sheet : Sheet) :
    MAp.TellAlike a.name sheet ((do MAp.fullObservers agents a; MAp.observersInPart agents a).perform sheet)
      ((MAp.groupObservers agents levelGroups a.inGroups).perform sheet) := by
  obtain ⟨full, inPart, ho⟩ := ha
  obtain ⟨text, report, guards⟩ := sheet
  have hlevels : (do MAp.fullObservers agents a; MAp.observersInPart agents a) =
      (do MAp.observers agents a.name " observes " full; MAp.observers agents a.name " aware_of " inPart) := by
    rw [MAp.fullObservers, MAp.observersInPart, ho]
  have hgroups : MAp.groupObservers agents levelGroups a.inGroups = (do
      MAp.observers agents a.name " in_group fully of " full
      MAp.observers agents a.name " in_group partially of " inPart) := by
    have hfull : (" in_group " ++ "fully" ++ " of ") = " in_group fully of " := rfl
    have hinPart : (" in_group " ++ "partially" ++ " of ") = " in_group partially of " := rfl
    rw [MAp.groupObservers, Action.inGroups, ho]
    simp only [Observers.inGroups, levelGroups, Work.each, Sheet.nameOf, pure_bind, hfull, hinPart, groupEntries_fully,
      groupEntries_partially, Work.ofExcept, bind_pure_unit]
  obtain ⟨outcome, ts, us, left, hnames, hrun⟩ :=
    (MAp.tells_observers agents a.name full).both (MAp.tells_observers agents a.name inPart) guards
  rw [hlevels, hgroups, hrun, hrun]
  refine ⟨rfl, rfl, rfl, ts, us, hnames, rfl, rfl, fun hts hus => ?_⟩
  have hobserves := MAp.replaceAll_told " observes " "observes".toList rfl (by decide) " in_group fully of " ts [] hts
  have haware := MAp.replaceAll_told " aware_of " "aware_of".toList rfl (by decide) " in_group partially of " us [] hus
  rw [List.nil_append, List.nil_append] at hobserves haware
  rw [hobserves, haware, String.toList_append, String.toList_append]

/-- **Levels of observation and groups agree.**  An action with levels and the same action with a group for each level
are ground for the same choices of objects, record the same fluents, stop alike, and give the same ground actions, with
levels of the one for groups of the other.  Of the observers of two such ground actions the same is told, but for the
verbs. -/
theorem Action.levels_agree_with_groups {a : Action} (ha : a.HasLevels) {finish : Action → Except Fault Action}
    (hfinish : finish = .ok ∨ finish = Action.underGroundName) (objects types : Hierarchy) (distinct : Bool)
    (groups : List Tree) (place : Nat) (known : Fluents) :
    let run := (a.ground finish objects types distinct groups place).perform { fluents := known }
    (a.inGroups.ground finish objects types distinct levelGroups place).perform { fluents := known } =
      (run.1, run.2.inGroups) ∧
    ∀ G ∈ run.2.actions, G.action.HasLevels ∧ ∀ agents sheet, MAp.TellAlike G.action.name sheet
      ((do MAp.fullObservers agents G.action; MAp.observersInPart agents G.action).perform sheet)
      ((MAp.groupObservers agents levelGroups G.action.inGroups).perform sheet) := by
  have hleaves := leavesObservers_finish hfinish
  intro run
  constructor
  · have hmirrors := Action.mirrors_ground hleaves ha objects types distinct groups place { fluents := known }
    rw [Except.map_id] at hmirrors
    exact hmirrors
  · intro G hG
    obtain ⟨b, hb, hyields⟩ := keeps_ground (List.mem_singleton_self a) place { fluents := known }
      (by simp [Grounding.From]) G hG
    obtain rfl := List.mem_singleton.1 hb
    have hlevels := hyields.hasLevels hleaves ha
    exact ⟨hlevels, fun agents sheet => MAp.tellAlike_inGroups hlevels agents sheet⟩

/-- The agent that looks observes fully under a condition, and another in part. -/
def watchedLook (parameter agent : Tree) : Action where
  name := "look"
  parameters := [parameter]
  guards := [⟨[.list [.word "open", agent]], blankConditions⟩, .blank]
  observers := .levels [⟨.list [agent], 0, blankConditions⟩] [⟨.list [.word "y"], 1, blankConditions⟩]

/-- Looking, for each of two agents. -/
theorem Action.levels_agree_with_groups_look :
    ((watchedLook (.list [.word "?x", .word "agent"]) (.word "?x")).inGroups.ground .ok
      [("agent", [.word "a", .word "b"])] [] false levelGroups 0).perform {} =
      (.ok (), { actions := [⟨(watchedLook (.word "b") (.word "b")).inGroups, none⟩,
        ⟨(watchedLook (.word "a") (.word "a")).inGroups, none⟩] }) ∧
    MAp.TellAlike "look" { guards := (watchedLook (.word "a") (.word "a")).guards }
      (.ok (), ⟨"a observes look if open_a;\ny aware_of look;\n", "",
        [⟨[.list [.word "open", .word "a"]], []⟩, ⟨[], []⟩]⟩)
      ((MAp.groupObservers (.ok []) levelGroups (watchedLook (.word "a") (.word "a")).inGroups).perform
        { guards := (watchedLook (.word "a") (.word "a")).guards }) := by
  have hlevels : (watchedLook (.list [.word "?x", .word "agent"]) (.word "?x")).HasLevels := ⟨_, _, rfl⟩
  have hranges : Ranges.read [("agent", [.word "a", .word "b"])] [] [.list [.word "?x", .word "agent"]] =
      .ok [(.word "?x", [.word "a", .word "b"])] := by cbv
  have hground : ((watchedLook (.list [.word "?x", .word "agent"]) (.word "?x")).ground .ok
      [("agent", [.word "a", .word "b"])] [] false [] 0).perform { fluents := [] } =
      (.ok (), { actions := [⟨watchedLook (.word "b") (.word "b"), none⟩,
        ⟨watchedLook (.word "a") (.word "a"), none⟩] }) := by
    rw [Action.perform_ground (List.cons_ne_nil _ _) hranges]
    rfl
  have htold : (do
      MAp.fullObservers (.ok []) (watchedLook (.word "a") (.word "a"))
      MAp.observersInPart (.ok []) (watchedLook (.word "a") (.word "a"))).perform
        { guards := (watchedLook (.word "a") (.word "a")).guards } =
      (.ok (), ⟨"a observes look if open_a;\ny aware_of look;\n", "",
        [⟨[.list [.word "open", .word "a"]], []⟩, ⟨[], []⟩]⟩) := by
    rfl
  obtain ⟨hrun, halike⟩ := Action.levels_agree_with_groups hlevels (.inl rfl)
    [("agent", [.word "a", .word "b"])] [] false [] 0 []
  rw [hground] at hrun halike
  refine ⟨hrun, ?_⟩
  rw [← htold]
  exact (halike ⟨watchedLook (.word "a") (.word "a"), none⟩ (by simp)).2 _ _

end Epistemic
