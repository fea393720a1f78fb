import Epistemic.Proofs.Recording
import Mathlib.Data.List.Forall2
/-!
# Where ground actions come from

A ground action is an action without parameters itself, or an action for one choice of objects, whose formulas are the
formulas of the action, filled in one by one (`Action.Yields`, `Action.forall₂_groundWith`).
-/
namespace Epistemic

theorem exists_of_mem_right {α β : Type} {R : α → β → Prop} {xs : List α} {ys : List β} (h : List.Forall₂ R xs ys)
    {y : β} (hy : y ∈ ys) : ∃ x ∈ xs, R x y := by
  induction h with
  | nil => cases hy
  | @cons x y' xs ys hxy _ ih =>
    rcases List.mem_cons.1 hy with rfl | hy
    · exact ⟨x, List.mem_cons_self, hxy⟩
    · obtain ⟨x', hx', hR⟩ := ih hy
      exact ⟨x', List.mem_cons_of_mem x hx', hR⟩

/-- **A choice takes one item from each list.** -/
theorem mem_choices_iff {α : Type} : ∀ {xss : List (List α)} {choice : List α},
    choice ∈ choices xss ↔ List.Forall₂ (· ∈ ·) choice xss
  | [], choice => by rw [choices, List.mem_singleton, List.forall₂_nil_right_iff]
  | xs :: xss, choice => by
    rw [choices, List.mem_flatMap, List.forall₂_cons_right_iff]
    constructor
    · rintro ⟨x, hx, h⟩
      obtain ⟨rest, hrest, rfl⟩ := List.mem_map.1 h
      exact ⟨x, rest, hx, mem_choices_iff.1 hrest, rfl⟩
    · rintro ⟨x, rest, hx, hrest, rfl⟩
      exact ⟨x, hx, List.mem_map.2 ⟨rest, mem_choices_iff.2 hrest, rfl⟩⟩

/-! ## The formulas of an action -/

/-- The formulas of a clause: what it speaks of, and its conditions. -/
def Clause.formulas (c : Clause) : List Tree := c.body :: (c.positive ++ c.negative)

/-- The formulas of an action: its preconditions, and its effects with their conditions. -/
def Action.formulas (a : Action) : List Tree :=
  a.positivePreconditions ++ a.negativePreconditions ++
    (a.clauses a.addEffects ++ a.clauses a.deleteEffects).flatMap Clause.formulas

theorem Observers.addTo_eq_append (guards : List Guard) (o : Observers Clause) :
    ∃ more, (o.addTo guards).1 = guards ++ more := by
  have hgroups : ∀ (members : Catalog (List Clause)) guards, ∃ more,
      (Observers.addGroups guards members).1 = guards ++ more := by
    intro members
    induction members with
    | nil => exact fun _ => ⟨[], (List.append_nil _).symm⟩
    | cons entry rest ih =>
      intro guards
      obtain ⟨more, hmore⟩ := ih (addClauses guards entry.2).1
      exact ⟨_, hmore.trans (List.append_assoc _ _ _)⟩
  cases o with
  | levels full inPart => exact ⟨_, List.append_assoc _ _ _⟩
  | groups members => exact hgroups members guards

theorem Action.formulas_withClauses (a : Action) (adds deletes : List Clause) (o : Observers Clause) :
    (a.withClauses adds deletes o).formulas =
      a.positivePreconditions ++ a.negativePreconditions ++ (adds ++ deletes).flatMap Clause.formulas := by
  obtain ⟨more, hmore⟩ := Observers.addTo_eq_append (addClauses (addClauses [] adds).1 deletes).1 o
  have hadds : (addClauses [] adds).2.map
      (Entry.clause (o.addTo (addClauses (addClauses [] adds).1 deletes).1).1) = adds := by
    rw [hmore, addClauses, List.append_assoc]
    exact map_clause_addClauses [] _ adds
  have hdeletes : (addClauses (addClauses [] adds).1 deletes).2.map
      (Entry.clause (o.addTo (addClauses (addClauses [] adds).1 deletes).1).1) = deletes := by
    rw [hmore]
    exact map_clause_addClauses _ more deletes
  simp only [formulas, clauses, withClauses, hadds, hdeletes]

/-! ## Filling in -/

/-- A formula as it is filled in for an assignment, where the fluents that were recorded up to there are `known`. -/
def FilledIn (σ : Assignment) (known : Fluents) (before after : Tree) : Prop :=
  ∃ l l', (substitute σ true before).perform l = (.ok after, l') ∧ l' ⊆ known

theorem FilledIn.mono {σ : Assignment} {known more : Fluents} {before after : Tree} (hsub : known ⊆ more)
    (h : FilledIn σ known before after) : FilledIn σ more before after := by
  obtain ⟨l, l', hrun, hl⟩ := h
  exact ⟨l, l', hrun, List.Subset.trans hl hsub⟩

section
variable {σ : Assignment} {l l' : Fluents}

open Work (perform_bind_eq_ok perform_pure perform_ofExcept)

/-- Fluents that were recorded stay recorded when more steps go well. -/
theorem Work.Adds.subset_of_ok {α : Type} {P : String → Prop} {w : Work Fluents α} (hw : w.Adds id P) {a : α}
    (h : w.perform l = (.ok a, l')) : l ⊆ l' := by
  have := hw.subset l
  rwa [h] at this

theorem forall₂_substituteEach : ∀ {ts us : List Tree} {l l' : Fluents},
    (substituteEach σ true ts).perform l = (.ok us, l') → List.Forall₂ (FilledIn σ l') ts us
  | [], us, l, l', h => by
    cases h
    exact .nil
  | t :: ts, us, l, l', h => by
    obtain ⟨u, l₁, hu, h⟩ := perform_bind_eq_ok.1 h
    obtain ⟨us, l₂, hus, h⟩ := perform_bind_eq_ok.1 h
    cases h
    exact .cons ⟨l, l₁, hu, (adds_substituteEach true ts).subset_of_ok hus⟩ (forall₂_substituteEach hus)

theorem forall₂_mono {known more : Fluents} (hsub : known ⊆ more) {ts us : List Tree}
    (h : List.Forall₂ (FilledIn σ known) ts us) : List.Forall₂ (FilledIn σ more) ts us :=
  h.imp fun _ _ => FilledIn.mono hsub

theorem forall₂_substituteClause {c d : Clause} (h : (substituteClause σ true c.tree).perform l = (.ok d, l')) :
    List.Forall₂ (FilledIn σ l') c.formulas d.formulas := by
  obtain ⟨_, _, hpart, h⟩ := perform_bind_eq_ok.1 h
  cases hpart
  obtain ⟨body, l₁, hbody, h⟩ := perform_bind_eq_ok.1 h
  obtain ⟨_, _, hpart, h⟩ := perform_bind_eq_ok.1 h
  cases hpart
  obtain ⟨positive, l₂, hpositive, h⟩ := perform_bind_eq_ok.1 h
  obtain ⟨_, _, hpart, h⟩ := perform_bind_eq_ok.1 h
  cases hpart
  obtain ⟨negative, l₃, hnegative, h⟩ := perform_bind_eq_ok.1 h
  obtain ⟨_, _, hpart, h⟩ := perform_bind_eq_ok.1 h
  cases hpart
  obtain ⟨excluded, l₄, hexcluded, h⟩ := perform_bind_eq_ok.1 h
  cases h
  have h₂ := (adds_substituteEach true _).subset_of_ok hpositive
  have h₃ := (adds_substituteEach true _).subset_of_ok hnegative
  have h₄ := (adds_substituteEach true _).subset_of_ok hexcluded
  have h₃ := List.Subset.trans h₃ h₄
  exact .cons ⟨_, _, hbody, List.Subset.trans h₂ h₃⟩
    (List.rel_append (forall₂_mono h₃ (forall₂_substituteEach hpositive))
      (forall₂_mono h₄ (forall₂_substituteEach hnegative)))

theorem forall₂_substituteClauses : ∀ {cs ds : List Clause} {l l' : Fluents},
    (substituteClauses σ true cs).perform l = (.ok ds, l') →
      List.Forall₂ (FilledIn σ l') (cs.flatMap Clause.formulas) (ds.flatMap Clause.formulas)
  | [], ds, l, l', h => by
    cases h
    exact .nil
  | c :: cs, ds, l, l', h => by
    obtain ⟨d, l₁, hd, h⟩ := perform_bind_eq_ok.1 h
    obtain ⟨ds, l₂, hds, h⟩ := perform_bind_eq_ok.1 h
    cases h
    exact List.rel_append
      (forall₂_mono ((adds_substituteClauses true cs).subset_of_ok hds) (forall₂_substituteClause hd))
      (forall₂_substituteClauses hds)

/-- **The formulas of a ground action are those of the action, filled in one by one.** -/
theorem Action.forall₂_groundWith {groups : List Tree} {a ground : Action}
    (h : (a.groundWith groups σ).perform l = (.ok ground, l')) :
    List.Forall₂ (FilledIn σ l') a.formulas ground.formulas := by
  obtain ⟨positive, l₁, hpositive, h⟩ := perform_bind_eq_ok.1 h
  obtain ⟨negative, l₂, hnegative, h⟩ := perform_bind_eq_ok.1 h
  obtain ⟨adds, l₃, hadds, h⟩ := perform_bind_eq_ok.1 h
  obtain ⟨deletes, l₄, hdeletes, h⟩ := perform_bind_eq_ok.1 h
  obtain ⟨observers, l₅, hobservers, h⟩ := perform_bind_eq_ok.1 h
  cases h
  have h₂ := (adds_substituteEach true _).subset_of_ok hnegative
  have h₃ := (adds_substituteClauses true _).subset_of_ok hadds
  have h₄ := (adds_substituteClauses true _).subset_of_ok hdeletes
  have h₅ := (adds_groundObservers groups a).subset_of_ok hobservers
  have h₄ := List.Subset.trans h₄ h₅
  have h₃ := List.Subset.trans h₃ h₄
  have h₂ := List.Subset.trans h₂ h₃
  rw [formulas_withClauses]
  simp only [formulas, List.flatMap_append]
  exact List.rel_append
    (List.rel_append (forall₂_mono h₂ (forall₂_substituteEach hpositive))
      (forall₂_mono h₃ (forall₂_substituteEach hnegative)))
    (List.rel_append (forall₂_mono h₄ (forall₂_substituteClauses hadds))
      (forall₂_mono h₅ (forall₂_substituteClauses hdeletes)))

end

/-! ## Ground actions -/

/-- A ground action that comes from an action, where the fluents that were recorded up to there are `known`. -/
inductive Action.Yields (finish : Action → Except Fault Action) (objects types : Hierarchy) (groups : List Tree)
    (known : Fluents) (a : Action) : GroundAction → Prop
  /-- An action without parameters stands for itself. -/
  | itself {done : Action} (place : Nat) (hparameters : a.parameters = []) (hdone : finish a = .ok done) :
      Yields finish objects types groups known a ⟨done, some place⟩
  /-- Any other is filled in for a choice of objects. -/
  | filled {ranges : Ranges} {choice : List Tree} {ground done : Action} {l l' : Fluents}
      (hparameters : a.parameters ≠ []) (hranges : Ranges.read objects types a.parameters = .ok ranges)
      (hchoice : choice ∈ ranges.assignments)
      (hground : (a.groundWith groups ⟨ranges.vars, choice⟩).perform l = (.ok ground, l')) (hknown : l' ⊆ known)
      (hdone : finish ground = .ok done) : Yields finish objects types groups known a ⟨done, none⟩

section
variable {finish : Action → Except Fault Action} {objects types : Hierarchy} {groups : List Tree} {a : Action}
  {distinct : Bool} {G : GroundAction}

theorem Action.Yields.mono {known more : Fluents} (hsub : known ⊆ more)
    (h : a.Yields finish objects types groups known G) : a.Yields finish objects types groups more G := by
  cases h with
  | itself place hparameters hdone => exact .itself place hparameters hdone
  | filled hparameters hranges hchoice hground hknown hdone =>
    exact .filled hparameters hranges hchoice hground (List.Subset.trans hknown hsub) hdone

namespace Grounding

theorem perform_recording {α : Type} (w : Work Fluents α) (g : Grounding) :
    (recording w).perform g = ((w.perform g.fluents).1, { g with fluents := (w.perform g.fluents).2 }) := by
  rw [recording, Work.perform_bind_ok (Work.perform_get g)]
  simp only
  rw [Work.perform_bind_ok (Work.perform_modify _ g), Work.perform_ofExcept]

theorem adds_recording {α : Type} {P : String → Prop} {w : Work Fluents α} (hw : w.Adds id P) :
    (recording w).Adds Grounding.fluents P := by
  obtain ⟨outcome, new, hw, hnew⟩ := hw
  refine ⟨outcome, new, fun g => ?_, hnew⟩
  rw [perform_recording]
  exact hw g.fluents

theorem adds_add {P : String → Prop} (G : GroundAction) : (add G).Adds Grounding.fluents P :=
  ⟨.ok (), [], fun _ => ⟨rfl, rfl⟩, by simp⟩

end Grounding

namespace Action

theorem perform_ground {ranges : Ranges} (hparameters : a.parameters ≠ [])
    (hranges : Ranges.read objects types a.parameters = .ok ranges) (place : Nat) (g : Grounding) :
    (a.ground finish objects types distinct groups place).perform g =
      (a.groundEach finish groups distinct ranges.vars ranges.assignments).perform g := by
  rw [ground, if_neg (by simpa using hparameters), hranges]
  exact Work.perform_bind_ok (Work.perform_ofExcept _ g)

/-- **Grounding an action only adds names of fluents.** -/
theorem adds_ground (place : Nat) :
    (a.ground finish objects types distinct groups place).Adds Grounding.fluents (isFluentName · = true) := by
  unfold ground
  split
  · exact (Work.Adds.ofExcept _).bind fun _ => Grounding.adds_add _
  · refine (Work.Adds.ofExcept _).bind fun ranges => .each (fun choice => (Work.Adds.ofExcept _).bind fun kept => ?_) _
    split
    · exact (Grounding.adds_recording (adds_groundWith groups a)).bind fun _ =>
        (Work.Adds.ofExcept _).bind fun _ => Grounding.adds_add _
    · exact .ofPure ()

end Action
end

/-! ## Runs -/

namespace Work

variable {σ α β : Type} {I : σ → Prop}

/-- Steps that keep an invariant, whether they go well or stop. -/
def Keeps (I : σ → Prop) (w : Work σ α) : Prop := ∀ s, I s → I (w.perform s).2

theorem Keeps.of_ok {w : Work σ α} (hw : Keeps I w) {s t : σ} {a : α} (h : w.perform s = (.ok a, t)) (hs : I s) :
    I t := by
  have := hw s hs
  rwa [h] at this

theorem Keeps.ofExcept (r : Except Fault α) : Keeps I (Work.ofExcept r : Work σ α) := by
  intro s hs
  rwa [perform_ofExcept]

theorem Keeps.bind {w : Work σ α} {f : α → Work σ β} (hw : Keeps I w) (hf : ∀ a, Keeps I (f a)) :
    Keeps I (w >>= f) := by
  intro s hs
  have hs := hw s hs
  rw [perform_bind]
  rcases h : w.perform s with ⟨_ | a, t⟩ <;> rw [h] at hs
  · exact hs
  · exact hf a t hs

theorem each_append {f : β → Work σ Unit} (bs cs : List β) :
    Work.each f (bs ++ cs) = (do Work.each f bs; Work.each f cs) := by
  induction bs with
  | nil =>
    rw [List.nil_append, Work.each, pure_bind]
  | cons b bs ih =>
    rw [List.cons_append, Work.each, Work.each, ih]
    exact (bind_assoc _ _ _).symm

theorem Keeps.each {f : β → Work σ Unit} : ∀ {bs : List β}, (∀ b ∈ bs, Keeps I (f b)) → Keeps I (Work.each f bs)
  | [], _ => fun _ hs => hs
  | b :: _, h => (h b List.mem_cons_self).bind fun _ => .each fun c hc => h c (List.mem_cons_of_mem b hc)

end Work

section
variable (finish : Action → Except Fault Action) (objects types : Hierarchy) (groups : List Tree)

/-- Every ground action so far comes from one of the actions. -/
def Grounding.From (as : List Action) (g : Grounding) : Prop :=
  ∀ G ∈ g.actions, ∃ a ∈ as, a.Yields finish objects types groups g.fluents G

variable {finish objects types groups} {as : List Action} {a : Action} {distinct : Bool}

namespace Grounding.From

variable {g : Grounding}

theorem mono {fluents : Fluents} (h : g.From finish objects types groups as) (hsub : g.fluents ⊆ fluents) :
    From finish objects types groups as { g with fluents } := by
  intro G hG
  obtain ⟨a, ha, hyields⟩ := h G hG
  exact ⟨a, ha, hyields.mono hsub⟩

theorem add {G : GroundAction} (h : g.From finish objects types groups as) (ha : a ∈ as)
    (hyields : a.Yields finish objects types groups g.fluents G) :
    From finish objects types groups as { g with actions := G :: g.actions } :=
  List.forall_mem_cons.2 ⟨⟨a, ha, hyields⟩, h⟩

end Grounding.From

/-- What one choice of objects adds comes from the action. -/
theorem keeps_choice {ranges : Ranges} {choice : List Tree} (ha : a ∈ as) (hparameters : a.parameters ≠ [])
    (hranges : Ranges.read objects types a.parameters = .ok ranges) (hchoice : choice ∈ ranges.assignments) :
    (do
      let ground ← Grounding.recording (a.groundWith groups ⟨ranges.vars, choice⟩)
      Grounding.add { action := ← Work.ofExcept (finish ground) }).Keeps
      (Grounding.From finish objects types groups as) := by
  intro g hg
  have hsub : g.fluents ⊆ _ :=
    (adds_groundWith groups a : (a.groundWith groups ⟨ranges.vars, choice⟩).Adds _ _).subset _
  rw [Work.perform_bind, Grounding.perform_recording]
  rcases hground : (a.groundWith groups ⟨ranges.vars, choice⟩).perform g.fluents with ⟨_ | ground, fluents⟩ <;>
    rw [hground] at hsub
  · exact hg.mono hsub
  · simp only
    rw [Work.perform_bind, Work.perform_ofExcept]
    cases hdone : finish ground with
    | error e => exact hg.mono hsub
    | ok done => exact (hg.mono hsub).add ha (.filled hparameters hranges hchoice hground (List.Subset.refl _) hdone)

/-- **What grounding an action adds comes from it.** -/
theorem keeps_ground (ha : a ∈ as) (place : Nat) :
    (a.ground finish objects types distinct groups place).Keeps (Grounding.From finish objects types groups as) := by
  intro g hg
  unfold Action.ground
  split
  · rename_i hparameters
    rw [Work.perform_bind, Work.perform_ofExcept]
    cases hdone : finish a with
    | error e => exact hg
    | ok done => exact hg.add ha (.itself place (List.isEmpty_iff.1 hparameters) hdone)
  · rename_i hparameters
    rw [Work.perform_bind, Work.perform_ofExcept]
    cases hranges : Ranges.read objects types a.parameters with
    | error e => exact hg
    | ok ranges =>
      refine Work.Keeps.each (fun choice hchoice => (Work.Keeps.ofExcept _).bind fun kept => ?_) g hg
      split
      · exact keeps_choice ha (by simpa using hparameters) hranges hchoice
      · exact fun _ hs => hs

/-- **Every ground action of a domain comes from one of its actions.** -/
theorem MAp.from_groundActions (d : Domain) : Grounding.From finish d.objects d.types d.groups d.actions
    ((groundActions finish d).perform {}).2 := by
  have hrun : ∀ (as : List Action) (place : Nat), (∀ a ∈ as, a ∈ d.actions) →
      (groundFrom finish d place as).Keeps (Grounding.From finish d.objects d.types d.groups d.actions) := by
    intro as
    induction as with
    | nil => exact fun _ _ _ hg => hg
    | cons a as ih =>
      intro place h
      have h := List.forall_mem_cons.1 h
      exact (keeps_ground h.1 place).bind fun _ => ih (place + 1) h.2
  exact hrun d.actions 0 (fun _ ha => ha) {} (by simp [Grounding.From])

end
end Epistemic
