import Epistemic.MAp.Document
/-!
# Fluents that are recorded

Grounding records the names of the formulas that it fills in, and the fluents of the task are added to them.  Such steps
only add to the fluents: neither their outcome nor what they add depends on the fluents before (`Work.Adds`).
-/
namespace Epistemic
namespace Work

variable {σ α β γ : Type} {view : σ → List β} {P : β → Prop}

/-- Steps that only add to a list of the state, always the same and with the same outcome, and only what has a
property. -/
def Adds (view : σ → List β) (P : β → Prop) (w : Work σ α) : Prop :=
  ∃ outcome new, (∀ s, (w.perform s).1 = outcome ∧ view (w.perform s).2 = new ++ view s) ∧ ∀ x ∈ new, P x

namespace Adds

theorem ofPure (a : α) : Adds view P (pure a) := ⟨.ok a, [], fun _ => ⟨rfl, rfl⟩, by simp⟩

theorem ofStop (e : Fault) : Adds view P (stop e : Work σ α) := ⟨.error e, [], fun _ => ⟨rfl, rfl⟩, by simp⟩

theorem ofExcept (r : Except Fault α) : Adds view P (Work.ofExcept r : Work σ α) :=
  ⟨r, [], fun s => by simp, by simp⟩

theorem ofCons {x : β} (hx : P x) : Adds id P (modify (x :: ·) : Work (List β) Unit) :=
  ⟨.ok (), [x], fun _ => ⟨rfl, rfl⟩, by simpa using hx⟩

/-- **Steps in a row add what each adds.** -/
theorem bind {w : Work σ α} {f : α → Work σ γ} (hw : Adds view P w) (hf : ∀ a, Adds view P (f a)) :
    Adds view P (w >>= f) := by
  obtain ⟨first, new, hw, hnew⟩ := hw
  cases first with
  | error e =>
    refine ⟨.error e, new, fun s => ?_, hnew⟩
    obtain ⟨hfault, hview⟩ := hw s
    rw [perform_bind_error (Prod.ext hfault rfl : w.perform s = (.error e, _))]
    exact ⟨rfl, hview⟩
  | ok a =>
    obtain ⟨second, more, hf, hmore⟩ := hf a
    refine ⟨second, more ++ new, fun s => ?_, List.forall_mem_append.2 ⟨hmore, hnew⟩⟩
    obtain ⟨hresult, hview⟩ := hw s
    rw [perform_bind_ok (Prod.ext hresult rfl : w.perform s = (.ok a, _)), List.append_assoc, ← hview]
    exact hf _

theorem each {f : γ → Work σ Unit} (hf : ∀ c, Adds view P (f c)) : ∀ cs, Adds view P (Work.each f cs)
  | [] => ofPure ()
  | c :: cs => (hf c).bind fun _ => each hf cs

theorem foldlM {f : α → γ → Work σ α} (hf : ∀ a c, Adds view P (f a c)) : ∀ (cs : List γ) (a : α),
    Adds view P (cs.foldlM f a)
  | [], a => ofPure a
  | c :: cs, a => by
    rw [List.foldlM_cons]
    exact (hf a c).bind fun b => foldlM hf cs b

variable {w : Work σ α}

/-- **What is added can be read off a run that begins with nothing.** -/
theorem view_eq (hw : Adds view P w) {empty : σ} (hempty : view empty = []) (s : σ) :
    view (w.perform s).2 = view (w.perform empty).2 ++ view s := by
  obtain ⟨_, new, hw, _⟩ := hw
  rw [(hw s).2, (hw empty).2, hempty, List.append_nil]

theorem subset (hw : Adds view P w) (s : σ) : view s ⊆ view (w.perform s).2 := by
  obtain ⟨_, new, hw, _⟩ := hw
  rw [(hw s).2]
  exact List.subset_append_right _ _

theorem of_mem (hw : Adds view P w) {s : σ} {x : β} (hx : x ∈ view (w.perform s).2) : P x ∨ x ∈ view s := by
  obtain ⟨_, new, hw, hnew⟩ := hw
  rw [(hw s).2] at hx
  exact (List.mem_append.1 hx).imp_left (hnew x)

end Adds
end Work

/-! ## Filling in formulas -/

section
variable {σ : Assignment}

open Work (Adds)

theorem adds_fillOperator {P : String → Prop} {inner : Tree → Work Fluents Tree} (hinner : ∀ t, Adds id P (inner t))
    (items : List Tree) (place : Nat) : Adds id P (σ.fillOperator inner items place) := by
  have hbehind : ∀ items, Adds id P (Assignment.fillBehind inner place items) := by
    intro items
    unfold Assignment.fillBehind
    split
    · exact .ofStop _
    · exact .ofPure _
    · exact (hinner _).bind fun _ => .ofPure _
  unfold Assignment.fillOperator
  split
  · exact .ofPure _
  · split
    · split
      · exact .ofStop _
      · exact (Adds.ofExcept _).bind hbehind
    · split
      · split
        · exact .ofStop _
        · exact (Adds.ofExcept _).bind hbehind
      · exact .ofPure _

theorem adds_recordFluent (items : List Tree) : Adds id (isFluentName · = true) (recordFluent items) := by
  refine (Adds.ofExcept _).bind fun text => ?_
  split
  · rename_i hname
    exact .ofCons hname
  · exact .ofPure ()

/-- **Filling in a formula only adds names of fluents.** -/
theorem adds_substituteWithin (recorded : Bool) : ∀ (fuel : Nat) (t : Tree),
    Adds id (isFluentName · = true) (substituteWithin σ recorded fuel t)
  | 0, t => .ofPure t
  | fuel + 1, t => by
    unfold substituteWithin
    refine (Adds.foldlM
      (fun items place => adds_fillOperator (adds_substituteWithin recorded fuel) items place) _ _).bind
      fun items => (Adds.ofExcept _).bind fun items => (Adds.ofExcept _).bind fun items => ?_
    split
    · exact (adds_recordFluent items).bind fun _ => .ofPure _
    · exact .ofPure _

theorem adds_substituteEach (recorded : Bool) (ts : List Tree) :
    Adds id (isFluentName · = true) (substituteEach σ recorded ts) := by
  induction ts with
  | nil => exact .ofPure []
  | cons t ts ih => exact (adds_substituteWithin recorded _ t).bind fun _ => ih.bind fun _ => .ofPure _

theorem adds_substituteClauses (recorded : Bool) : ∀ cs,
    Adds id (isFluentName · = true) (substituteClauses σ recorded cs)
  | [] => .ofPure []
  | c :: cs => by
    have hclause : Adds id (isFluentName · = true) (substituteClause σ recorded c.tree) :=
      (Adds.ofExcept _).bind fun _ => (adds_substituteWithin recorded _ _).bind fun _ =>
        (Adds.ofExcept _).bind fun _ => (adds_substituteEach recorded _).bind fun _ =>
        (Adds.ofExcept _).bind fun _ => (adds_substituteEach recorded _).bind fun _ =>
        (Adds.ofExcept _).bind fun _ => (adds_substituteEach recorded _).bind fun _ => .ofPure _
    exact hclause.bind fun _ => (adds_substituteClauses recorded cs).bind fun _ => .ofPure _

theorem adds_groundObservers (groups : List Tree) (a : Action) :
    Adds id (isFluentName · = true) (Grounding.groundObservers groups σ a) := by
  unfold Grounding.groundObservers
  split
  · exact (adds_substituteClauses false _).bind fun _ => (adds_substituteClauses false _).bind fun _ => .ofPure _
  · rename_i members _
    have hgroups : ∀ gs done, Adds id (isFluentName · = true) (Grounding.groundGroups σ a members gs done) := by
      intro gs
      induction gs with
      | nil => exact fun _ => .ofPure _
      | cons g gs ih =>
        intro done
        have hgroup : Adds id (isFluentName · = true) (Grounding.groundGroup σ a members g) :=
          (Adds.ofExcept _).bind fun _ => (adds_substituteClauses false _).bind fun _ => .ofPure _
        exact hgroup.bind fun _ => ih _
    exact (hgroups groups []).bind fun _ => .ofPure _

/-- **Grounding an action for one assignment only adds names of fluents.** -/
theorem adds_groundWith (groups : List Tree) (a : Action) :
    Adds id (isFluentName · = true) (a.groundWith groups σ) :=
  (adds_substituteEach true _).bind fun _ => (adds_substituteEach true _).bind fun _ =>
    (adds_substituteClauses true _).bind fun _ => (adds_substituteClauses true _).bind fun _ =>
    (adds_groundObservers groups a).bind fun _ => .ofPure _

end
end Epistemic
