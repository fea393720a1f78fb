import Epistemic.Proofs.GroundActions
/-!
# The fluents that a document declares

A document declares the atoms of the initial state and of the goals, the instances of the predicates, and the names that
were recorded while actions with parameters were filled in (`MAp.mem_declaredFluents`).
-/
namespace Epistemic
namespace MAp

/-! ## In order, each once -/

theorem inOrder_trans : ∀ {a b c : List Char}, inOrder a b = true → inOrder b c = true → inOrder a c = true
  | [], _, _, _, _ => by simp [inOrder]
  | _ :: _, [], _, h, _ => by simp [inOrder] at h
  | _ :: _, _ :: _, [], _, h => by simp [inOrder] at h
  | x :: a, y :: b, z :: c, hab, hbc => by
    simp only [inOrder, Bool.or_eq_true, Bool.and_eq_true, decide_eq_true_eq, beq_iff_eq] at hab hbc ⊢
    rcases hab with hxy | ⟨rfl, hab⟩
    · rcases hbc with hyz | ⟨rfl, _⟩
      · exact .inl (Nat.lt_trans hxy hyz)
      · exact .inl hxy
    · rcases hbc with hyz | ⟨rfl, hbc⟩
      · exact .inl hyz
      · exact .inr ⟨rfl, inOrder_trans hab hbc⟩

theorem inOrder_total : ∀ a b : List Char, (inOrder a b || inOrder b a) = true
  | [], _ => by simp [inOrder]
  | _ :: _, [] => by simp [inOrder]
  | x :: a, y :: b => by
    have htail := inOrder_total a b
    simp only [inOrder, Bool.or_eq_true, Bool.and_eq_true, decide_eq_true_eq, beq_iff_eq] at htail ⊢
    rcases Nat.lt_trichotomy x.toNat y.toNat with hlt | heq | hgt
    · exact .inl (.inl hlt)
    · have heq : x = y := Char.toNat_inj.1 heq
      subst heq
      exact htail.imp (fun h => .inr ⟨rfl, h⟩) fun h => .inr ⟨rfl, h⟩
    · exact .inr (.inl hgt)

theorem inOrder_antisymm : ∀ {a b : List Char}, inOrder a b = true → inOrder b a = true → a = b
  | [], [], _, _ => rfl
  | [], _ :: _, _, h => by simp [inOrder] at h
  | _ :: _, [], h, _ => by simp [inOrder] at h
  | x :: a, y :: b, hab, hba => by
    simp only [inOrder, Bool.or_eq_true, Bool.and_eq_true, decide_eq_true_eq, beq_iff_eq] at hab hba
    rcases hab with hxy | ⟨rfl, hab⟩
    · rcases hba with hyx | ⟨rfl, _⟩
      · omega
      · omega
    · rcases hba with hyx | ⟨_, hba⟩
      · omega
      · rw [inOrder_antisymm hab hba]

theorem mem_dropRepeats {x : String} {texts : List String} : x ∈ dropRepeats texts ↔ x ∈ texts := by
  fun_induction dropRepeats texts with
  | case1 => rfl
  | case2 => rfl
  | case3 y z rest heq ih =>
    rw [ih, beq_iff_eq.1 heq]
    simp
  | case4 y z rest _ ih => rw [List.mem_cons, ih, List.mem_cons (a := x) (b := y)]

/-- Texts in order lose every repetition, because equal ones are neighbours. -/
theorem nodup_dropRepeats {texts : List String} (h : texts.Pairwise fun x y => inOrder x.toList y.toList = true) :
    (dropRepeats texts).Nodup := by
  fun_induction dropRepeats texts with
  | case1 => exact List.nodup_nil
  | case2 => simp
  | case3 y z rest _ ih => exact ih h.of_cons
  | case4 y z rest hne ih =>
    refine List.nodup_cons.2 ⟨fun hmem => ?_, ih h.of_cons⟩
    obtain ⟨hy, hrest⟩ := List.pairwise_cons.1 h
    rcases List.mem_cons.1 (mem_dropRepeats.1 hmem) with rfl | hmem
    · simp at hne
    · -- the text would stand before and behind its neighbour
      have hyz := hy z List.mem_cons_self
      have hzy := (List.pairwise_cons.1 hrest).1 y hmem
      exact hne (by simpa using String.toList_inj.1 (inOrder_antisymm hyz hzy))

theorem mem_sorted {x : String} {texts : List String} : x ∈ sorted texts ↔ x ∈ texts := by
  rw [sorted, mem_dropRepeats, List.mem_mergeSort]

theorem nodup_sorted (texts : List String) : (sorted texts).Nodup := by
  apply nodup_dropRepeats
  apply List.pairwise_mergeSort
  · exact fun _ _ _ => inOrder_trans
  · exact fun _ _ => inOrder_total _ _

end MAp

/-! ## Steps that gather -/

namespace Work

variable {σ α β : Type} {view : σ → List β}

/-- Steps that, if they go well, add to a list of the state exactly what has a property. -/
def Gathers (view : σ → List β) (w : Work σ Unit) (new : β → Prop) : Prop :=
  ∀ s s', w.perform s = (.ok (), s') → ∀ x, x ∈ view s' ↔ new x ∨ x ∈ view s

namespace Gathers

variable {v w : Work σ Unit} {old new : β → Prop}

theorem congr (hw : Gathers view w old) (h : ∀ x, old x ↔ new x) : Gathers view w new := by
  intro s s' hrun x
  rw [hw s s' hrun x, h x]

theorem bind (hv : Gathers view v old) (hw : Gathers view w new) :
    Gathers view (v >>= fun _ => w) fun x => old x ∨ new x := by
  intro s s' hrun x
  obtain ⟨_, t, hfirst, hsecond⟩ := perform_bind_eq_ok.1 hrun
  rw [hw t s' hsecond x, hv s t hfirst x, or_left_comm, or_assoc]

theorem ofExcept_bind {r : Except Fault α} {f : α → Work σ Unit} {new : α → β → Prop}
    (hf : ∀ a, r = .ok a → Gathers view (f a) (new a)) :
    Gathers view (ofExcept r >>= f) fun x => ∃ a, r = .ok a ∧ new a x := by
  intro s s' hrun x
  obtain ⟨a, hr, hrun⟩ := perform_ofExcept_bind_eq_ok.1 hrun
  rw [hf a hr s s' hrun x]
  simp [hr]

theorem each {f : α → Work σ Unit} {new : α → β → Prop} (hf : ∀ a, Gathers view (f a) (new a)) :
    ∀ as, Gathers view (Work.each f as) fun x => ∃ a ∈ as, new a x
  | [] => fun s s' hrun x => by
    cases hrun
    simp
  | a :: as => ((hf a).bind (each hf as)).congr (by simp)

end Gathers

/-- What steps add that only add is what they add to nothing. -/
theorem Adds.gathers {P : β → Prop} {w : Work σ Unit} (hw : Adds view P w) {empty : σ} (hempty : view empty = []) :
    Gathers view w fun x => x ∈ view (w.perform empty).2 := by
  intro s s' hrun x
  have := hw.view_eq hempty s
  rw [hrun] at this
  rw [this, List.mem_append]

end Work

/-! ## The fluents of a task -/

namespace MAp

/-- The name that a formula has as a fluent. -/
def Names (c : Tree) (n : String) : Prop := formula c = .ok n ∧ hasOperator n = false

/-- A predicate of the domain with an object for each of its variables, all of them different. -/
def IsInstance (d : Domain) (c : Tree) : Prop :=
  ∃ e ∈ d.predicates, ∃ ranges objects items,
    Ranges.read d.objects d.types (e.2.map fun (v, type) => .list [.word v, type]) = .ok ranges ∧
    objects ∈ ranges.assignments ∧ objects.Nodup ∧
    Assignment.fillItems ranges.vars objects (.word e.1 :: ranges.vars) = .ok items ∧ c = .list items

/-- A fluent of the task: an atom of the initial state or the goals, or an instance of a predicate. -/
def IsTaskFluent (d : Domain) (p : Problem) (n : String) : Prop :=
  (∃ c ∈ p.state ++ p.positiveGoals ++ p.negativeGoals, Names c n) ∨ ∃ c, IsInstance d c ∧ Names c n

theorem gathers_addFluent (c : Tree) : (addFluent c).Gathers id (Names c) := by
  intro l l' hrun n
  obtain ⟨text, htext, hrun⟩ := Work.perform_ofExcept_bind_eq_ok.1 hrun
  cases hop : hasOperator text <;> rw [hop] at hrun <;> cases hrun
  · simp only [Names, htext, Except.ok.injEq, id_eq, List.mem_cons]
    refine or_congr_left ⟨?_, fun h => h.1.symm⟩
    rintro rfl
    exact ⟨rfl, hop⟩
  · simp only [Names, htext, Except.ok.injEq, id_eq, iff_or_self]
    rintro ⟨rfl, hnot⟩
    rw [hop] at hnot
    cases hnot

theorem nodup_of_keepsChoice {choice : List Tree} {kept : Bool} (h : keepsChoice true choice = .ok kept) :
    kept = true ↔ choice.Nodup := by
  simp only [keepsChoice, if_true] at h
  split at h
  · cases h
  · cases h
    simp

theorem gathers_addInstances (name : String) (r : Ranges) : (addInstances name r).Gathers id fun n =>
    ∃ objects ∈ r.assignments, objects.Nodup ∧
      ∃ items, Assignment.fillItems r.vars objects (.word name :: r.vars) = .ok items ∧ Names (.list items) n := by
  refine Work.Gathers.each (fun objects l l' hrun n => ?_) _
  obtain ⟨kept, hkept, hrun⟩ := Work.perform_ofExcept_bind_eq_ok.1 hrun
  have hnodup := nodup_of_keepsChoice hkept
  cases kept with
  | false =>
    cases hrun
    simp [← hnodup]
  | true =>
    obtain ⟨items, hitems, hrun⟩ := Work.perform_ofExcept_bind_eq_ok.1 hrun
    rw [gathers_addFluent (.list items) l l' hrun n]
    simp [← hnodup, hitems]

theorem gathers_addPredicates (d : Domain) :
    (Work.each (fun e => addPredicate d.objects d.types e.1 e.2) d.predicates).Gathers id fun n =>
      ∃ c, IsInstance d c ∧ Names c n := by
  refine (Work.Gathers.each
    (fun e => Work.Gathers.ofExcept_bind fun ranges _ => gathers_addInstances e.1 ranges) _).congr fun n => ⟨?_, ?_⟩
  · rintro ⟨e, he, ranges, hranges, objects, hobjects, hnodup, items, hitems, hnames⟩
    exact ⟨_, ⟨e, he, ranges, objects, items, hranges, hobjects, hnodup, hitems, rfl⟩, hnames⟩
  · rintro ⟨_, ⟨e, he, ranges, objects, items, hranges, hobjects, hnodup, hitems, rfl⟩, hnames⟩
    exact ⟨e, he, ranges, hranges, objects, hobjects, hnodup, items, hitems, hnames⟩

/-- **Adding the fluents of a task adds its fluents and nothing else.** -/
theorem gathers_addTask {t : Task} {d : Domain} {p : Problem} (hd : t.domain = some d) (hp : t.problem = some p) :
    (addTask t).Gathers id (IsTaskFluent d p) := by
  have hatoms : ∀ cs : List Tree, (Work.each addFluent cs).Gathers id fun n => ∃ c ∈ cs, Names c n :=
    Work.Gathers.each gathers_addFluent
  have hproblem : t.needProblem = .ok p := by rw [Task.needProblem, hp]
  have hdomain : t.needDomain = .ok d := by rw [Task.needDomain, hd]
  rw [addTask, hproblem, hdomain]
  refine ((hatoms p.state).bind ((hatoms p.positiveGoals).bind ((hatoms p.negativeGoals).bind
    (gathers_addPredicates d)))).congr fun n => ?_
  simp only [IsTaskFluent, List.mem_append, or_and_right, exists_or, or_assoc]

/-! ## The fluents of a document -/

/-- The names that are recorded while an action is filled in. -/
def recordedFluents (d : Domain) (a : Action) : Fluents :=
  ((a.ground Action.underGroundName d.objects d.types
    (asksForDistinct (.list d.requirements)) d.groups 0).perform {}).2.fluents

/-- The fluents that a document declares. -/
def declaredFluents (t : Task) (d : Domain) : List String :=
  (sorted ((groundTask t d).perform {}).2.fluents).filter (· != "")

theorem nodup_declaredFluents (t : Task) (d : Domain) : (declaredFluents t d).Nodup :=
  (nodup_sorted _).filter _

/-- An action without parameters is not filled in, and nothing is recorded. -/
theorem recordedFluents_of_noParameters {d : Domain} {a : Action} (h : a.parameters = []) :
    recordedFluents d a = [] := by
  rw [recordedFluents, Action.ground, h]
  simp only [List.isEmpty_nil, if_true]
  rw [Work.perform_bind, Work.perform_ofExcept]
  cases a.underGroundName <;> rfl

theorem isFluentName_of_recorded {d : Domain} {a : Action} {n : String} (h : n ∈ recordedFluents d a) :
    isFluentName n = true :=
  ((Action.adds_ground 0).of_mem h).resolve_right (by simp)

theorem gathers_ground (d : Domain) (a : Action) (place : Nat) :
    (a.ground Action.underGroundName d.objects d.types (asksForDistinct (.list d.requirements)) d.groups place).Gathers
      Grounding.fluents (· ∈ recordedFluents d a) := by
  intro g g' hrun n
  by_cases hparameters : a.parameters = []
  · -- the place is kept in the ground action, which the fluents do not show
    rw [Action.ground, hparameters] at hrun
    obtain ⟨done, _, hrun⟩ := Work.perform_ofExcept_bind_eq_ok.1 hrun
    cases hrun
    simp [recordedFluents_of_noParameters hparameters]
  · have hplace : ∀ i j, a.ground Action.underGroundName d.objects d.types (asksForDistinct (.list d.requirements))
        d.groups i = a.ground Action.underGroundName d.objects d.types
          (asksForDistinct (.list d.requirements)) d.groups j := by
      intro i j
      simp [Action.ground, hparameters]
    rw [hplace place 0] at hrun
    exact (Action.adds_ground 0).gathers rfl g g' hrun n

theorem gathers_groundFrom (d : Domain) : ∀ (as : List Action) (place : Nat),
    (groundFrom Action.underGroundName d place as).Gathers Grounding.fluents fun n => ∃ a ∈ as, n ∈ recordedFluents d a
  | [], _ => fun g g' hrun n => by
    cases hrun
    simp
  | a :: as, place => ((gathers_ground d a place).bind (gathers_groundFrom d as (place + 1))).congr (by simp)

theorem gathers_recording {w : Work Fluents Unit} {new : String → Prop} (hw : w.Gathers id new) :
    (Grounding.recording w).Gathers Grounding.fluents new := by
  intro g g' hrun n
  rw [Grounding.perform_recording] at hrun
  obtain ⟨hok, rfl⟩ := Prod.mk.inj hrun
  exact hw g.fluents _ (Prod.ext hok rfl) n

/-- **A document declares the fluents of the task and the names that were recorded for actions with parameters.** -/
theorem mem_declaredFluents {t : Task} {d : Domain} {p : Problem} {g : Grounding} (hd : t.domain = some d)
    (hp : t.problem = some p) (hrun : (groundTask t d).perform {} = (.ok (), g)) {n : String} :
    n ∈ declaredFluents t d ↔
      n ≠ "" ∧ (IsTaskFluent d p n ∨ ∃ a ∈ d.actions, a.parameters ≠ [] ∧ n ∈ recordedFluents d a) := by
  have hgathers := (gathers_groundFrom d d.actions 0).bind (gathers_recording (gathers_addTask hd hp))
  rw [declaredFluents, List.mem_filter, mem_sorted, hrun, hgathers {} g hrun n]
  have hparameters : (∃ a ∈ d.actions, n ∈ recordedFluents d a) ↔
      ∃ a ∈ d.actions, a.parameters ≠ [] ∧ n ∈ recordedFluents d a := by
    refine exists_congr fun a => and_congr_right fun _ => ⟨fun hn => ⟨fun hnone => ?_, hn⟩, And.right⟩
    rw [recordedFluents_of_noParameters hnone] at hn
    cases hn
  simp only [hparameters, bne_iff_ne, List.not_mem_nil, or_false]
  rw [and_comm, or_comm]

end MAp
end Epistemic
