import Epistemic.Proofs.Exchanges
import Epistemic.Proofs.TypeInstances
/-!
# Tuples of objects

An action is ground for the tuples of objects that its parameters range over, one after the other in the order of the
positions of their objects (`choices_eq_map_positions`).  If its formulas can be filled in, there is one ground action
for each tuple that is kept (`Action.perform_groundEach`), and a type that is not known stops it before the first
(`Action.ground_tuples`).
-/
namespace Epistemic

/-! ## Positions -/

/-- The positions at which one item can be chosen from each list. -/
def positions {α : Type} (xss : List (List α)) : List (List Nat) := choices (xss.map fun xs => List.range xs.length)

/-- The items at a position, one from each list. -/
def tupleAt (xss : List (List Tree)) (position : List Nat) : List Tree :=
  List.zipWith (fun xs i => xs.getD i (.list [])) xss position

theorem mem_positions_iff {α : Type} {xss : List (List α)} {position : List Nat} :
    position ∈ positions xss ↔ List.Forall₂ (fun i xs => i < xs.length) position xss := by
  simp only [positions, mem_choices_iff, List.forall₂_map_right_iff, List.mem_range]

/-- **Positions come in lexicographic order.** -/
theorem pairwise_positions {α : Type} (xss : List (List α)) : (positions xss).Pairwise (· < ·) := by
  unfold positions
  induction xss with
  | nil => exact List.pairwise_singleton _ _
  | cons xs xss ih =>
    rw [List.map_cons, choices, List.pairwise_flatMap]
    refine ⟨fun i _ => ?_, ?_⟩
    · rw [List.pairwise_map]
      exact ih.imp fun hlt => List.cons_lt_cons_iff.2 (.inr ⟨rfl, hlt⟩)
    · refine List.pairwise_lt_range.imp fun {i j} hij p hp q hq => ?_
      obtain ⟨p, -, rfl⟩ := List.mem_map.1 hp
      obtain ⟨q, -, rfl⟩ := List.mem_map.1 hq
      exact List.cons_lt_cons_iff.2 (.inl hij)

theorem map_getD_range (xs : List Tree) : (List.range xs.length).map (fun i => xs.getD i (.list [])) = xs := by
  refine List.ext_getElem (by simp) fun i hi _ => ?_
  have hi : i < xs.length := by simpa using hi
  simp [hi]

/-- **Choices are made in the order of their positions.** -/
theorem choices_eq_map_positions (xss : List (List Tree)) : choices xss = (positions xss).map (tupleAt xss) := by
  induction xss with
  | nil => rfl
  | cons xs xss ih =>
    calc choices (xs :: xss)
        = xs.flatMap fun x => (positions xss).map fun p => x :: tupleAt xss p := by
          rw [choices, ih]
          simp only [List.map_map, Function.comp_def]
      _ = ((List.range xs.length).map fun i => xs.getD i (.list [])).flatMap
            fun x => (positions xss).map fun p => x :: tupleAt xss p := by rw [map_getD_range]
      _ = (positions (xs :: xss)).map (tupleAt (xs :: xss)) := by
          simp only [positions, List.map_cons, choices, List.flatMap_map, List.map_flatMap, List.map_map]
          rfl

/-! ## Steps that cannot stop -/

namespace Work

variable {σ α β : Type}

/-- Steps that do not stop, whatever state they begin on. -/
def Succeeds (w : Work σ α) : Prop := ∀ s, ∃ a t, w.perform s = (.ok a, t)

theorem Succeeds.ofPure (a : α) : Succeeds (pure a : Work σ α) := fun s => ⟨a, s, rfl⟩

theorem Succeeds.bind {w : Work σ α} {f : α → Work σ β} (hw : Succeeds w) (hf : ∀ a, Succeeds (f a)) :
    Succeeds (w >>= f) := by
  intro s
  obtain ⟨a, t, ha⟩ := hw s
  obtain ⟨b, u, hb⟩ := hf a t
  exact ⟨b, u, perform_bind_eq_ok.2 ⟨a, t, ha, hb⟩⟩

theorem Succeeds.each {f : β → Work σ Unit} {bs : List β} (h : ∀ b ∈ bs, Succeeds (f b)) :
    Succeeds (Work.each f bs) := by
  induction bs with
  | nil => exact .ofPure ()
  | cons b bs ih =>
    obtain ⟨hb, hbs⟩ := List.forall_mem_cons.1 h
    exact hb.bind fun _ => ih hbs

/-- Steps whose outcome does not depend on the state cannot stop if they do not stop once. -/
theorem Adds.succeeds {γ : Type} {view : σ → List γ} {P : γ → Prop} {w : Work σ α} (hw : w.Adds view P) {s t : σ}
    {a : α} (h : w.perform s = (.ok a, t)) : Succeeds w := by
  obtain ⟨outcome, new, hw, -⟩ := hw
  have houtcome := (hw s).1
  rw [h] at houtcome
  intro s'
  exact ⟨a, (w.perform s').2, Prod.ext ((hw s').1.trans houtcome.symm) rfl⟩

end Work

/-! ## Formulas that can be filled in -/

/-- Filling in a formula does not stop. -/
def Fills (σ : Assignment) (recorded : Bool) (t : Tree) : Prop :=
  ∃ result fluents, (substitute σ recorded t).perform [] = (.ok result, fluents)

/-- Filling in the parts of a clause does not stop. -/
def Clause.Fills (σ : Assignment) (recorded : Bool) (c : Clause) : Prop :=
  ∀ t ∈ c.body :: (c.positive ++ c.negative ++ c.excluded), Epistemic.Fills σ recorded t

/-- Every declared group has its entries, and filling in the observers does not stop. -/
def Observers.Fills (groups : List Tree) (σ : Assignment) (guards : List Guard) : Observers Entry → Prop
  | .levels full inPart => ∀ e ∈ full ++ inPart, (e.clause guards).Fills σ false
  | .groups members => ∀ g ∈ groups, ∃ es, Action.groupEntries members g = .ok es ∧
      ∀ e ∈ es, (e.clause guards).Fills σ false

/-- Filling in the formulas of an action does not stop. -/
structure Action.Fills (groups : List Tree) (σ : Assignment) (a : Action) : Prop where
  preconditions : ∀ t ∈ a.positivePreconditions ++ a.negativePreconditions, Epistemic.Fills σ true t
  effects : ∀ e ∈ a.addEffects ++ a.deleteEffects, (e.clause a.guards).Fills σ true
  observers : a.observers.Fills groups σ a.guards

section
variable {σ : Assignment} {recorded : Bool} {groups : List Tree} {a : Action}

open Work (Succeeds)

theorem Fills.succeeds {t : Tree} (h : Fills σ recorded t) : Succeeds (substitute σ recorded t) := by
  obtain ⟨result, fluents, hrun⟩ := h
  exact (adds_substituteWithin recorded _ t).succeeds hrun

theorem succeeds_substituteEach {ts : List Tree} (h : ∀ t ∈ ts, Fills σ recorded t) :
    Succeeds (substituteEach σ recorded ts) := by
  induction ts with
  | nil => exact .ofPure []
  | cons t ts ih =>
    obtain ⟨ht, hts⟩ := List.forall_mem_cons.1 h
    exact ht.succeeds.bind fun _ => (ih hts).bind fun _ => .ofPure _

theorem substituteClause_eq (c : Clause) : substituteClause σ recorded c.tree = (do
    let body ← substitute σ recorded c.body
    let positive ← substituteEach σ recorded c.positive
    let negative ← substituteEach σ recorded c.negative
    let excluded ← substituteEach σ recorded c.excluded
    return ⟨body, positive, negative, excluded⟩) := rfl

theorem Clause.Fills.succeeds {c : Clause} (h : c.Fills σ recorded) :
    Succeeds (substituteClause σ recorded c.tree) := by
  obtain ⟨hbody, hconditions⟩ := List.forall_mem_cons.1 h
  rw [List.forall_mem_append, List.forall_mem_append] at hconditions
  obtain ⟨⟨hpositive, hnegative⟩, hexcluded⟩ := hconditions
  rw [substituteClause_eq]
  exact hbody.succeeds.bind fun _ => (succeeds_substituteEach hpositive).bind fun _ =>
    (succeeds_substituteEach hnegative).bind fun _ => (succeeds_substituteEach hexcluded).bind fun _ => .ofPure _

theorem succeeds_substituteClauses {es : List Entry} (h : ∀ e ∈ es, (e.clause a.guards).Fills σ recorded) :
    Succeeds (substituteClauses σ recorded (a.clauses es)) := by
  induction es with
  | nil => exact .ofPure []
  | cons e es ih =>
    obtain ⟨he, hes⟩ := List.forall_mem_cons.1 h
    exact he.succeeds.bind fun _ => (ih hes).bind fun _ => .ofPure _

theorem succeeds_groundGroups {members : Catalog (List Entry)} {gs : List Tree}
    (h : ∀ g ∈ gs, ∃ es, Action.groupEntries members g = .ok es ∧ ∀ e ∈ es, (e.clause a.guards).Fills σ false) :
    ∀ done, Succeeds (Grounding.groundGroups σ a members gs done) := by
  induction gs with
  | nil => exact fun done => .ofPure done
  | cons g gs ih =>
    obtain ⟨⟨es, hes, hfills⟩, hgs⟩ := List.forall_mem_cons.1 h
    have hgroup : Succeeds (Grounding.groundGroup σ a members g) := by
      rw [Grounding.groundGroup, hes]
      exact (succeeds_substituteClauses hfills).bind fun _ => .ofPure _
    exact fun done => hgroup.bind fun _ => ih hgs _

theorem succeeds_groundObservers (h : a.observers.Fills groups σ a.guards) :
    Succeeds (Grounding.groundObservers groups σ a) := by
  unfold Grounding.groundObservers
  cases hobservers : a.observers with
  | levels full inPart =>
    rw [hobservers] at h
    obtain ⟨hfull, hinPart⟩ := List.forall_mem_append.1 h
    exact (succeeds_substituteClauses hfull).bind fun _ => (succeeds_substituteClauses hinPart).bind fun _ => .ofPure _
  | groups members =>
    rw [hobservers] at h
    exact (succeeds_groundGroups h []).bind fun _ => .ofPure _

/-- **An action whose formulas can be filled in is ground.** -/
theorem Action.Fills.succeeds (h : a.Fills groups σ) : Succeeds (a.groundWith groups σ) := by
  obtain ⟨hpositive, hnegative⟩ := List.forall_mem_append.1 h.preconditions
  obtain ⟨hadds, hdeletes⟩ := List.forall_mem_append.1 h.effects
  exact (succeeds_substituteEach hpositive).bind fun _ => (succeeds_substituteEach hnegative).bind fun _ =>
    (succeeds_substituteClauses hadds).bind fun _ => (succeeds_substituteClauses hdeletes).bind fun _ =>
    (succeeds_groundObservers h.observers).bind fun _ => .ofPure _

end

/-! ## One ground action for each tuple -/

namespace Action

variable {groups vars : List Tree} {a : Action}

/-- The ground action that an action becomes for a tuple of objects. -/
def Becomes (groups vars : List Tree) (a : Action) (tuple : List Tree) (ground : Action) : Prop :=
  ∃ l l', (a.groundWith groups ⟨vars, tuple⟩).perform l = (.ok ground, l')

/-- A ground action has its tuple for parameters, and its name and kind from the action. -/
theorem Becomes.keeps {tuple : List Tree} {ground : Action} (h : a.Becomes groups vars tuple ground) :
    ground.parameters = tuple ∧ ground.name = a.name ∧ ground.kind = a.kind := by
  obtain ⟨l, l', h⟩ := h
  obtain ⟨_, _, -, h⟩ := Work.perform_bind_eq_ok.1 h
  obtain ⟨_, _, -, h⟩ := Work.perform_bind_eq_ok.1 h
  obtain ⟨_, _, -, h⟩ := Work.perform_bind_eq_ok.1 h
  obtain ⟨_, _, -, h⟩ := Work.perform_bind_eq_ok.1 h
  obtain ⟨_, _, -, h⟩ := Work.perform_bind_eq_ok.1 h
  cases h
  exact ⟨rfl, rfl, rfl⟩

/-- A tuple that is kept adds its ground action. -/
theorem perform_groundTuple {distinct : Bool} {t : List Tree} (hkeeps : keepsChoice distinct t = .ok true)
    {g : Grounding} {ground : Action} {l : Fluents}
    (hground : (a.groundWith groups ⟨vars, t⟩).perform g.fluents = (.ok ground, l)) (ts : List (List Tree)) :
    (a.groundEach .ok groups distinct vars (t :: ts)).perform g =
      (a.groundEach .ok groups distinct vars ts).perform ⟨⟨ground, none⟩ :: g.actions, l⟩ := by
  have hrecorded : (Grounding.recording (a.groundWith groups ⟨vars, t⟩)).perform g = (.ok ground, ⟨g.actions, l⟩) := by
    rw [Grounding.perform_recording, hground]
  rw [groundEach, Work.each, hkeeps]
  refine Work.perform_bind_ok (a := ()) ?_
  rw [Work.perform_bind_ok (Work.perform_ofExcept _ g), if_pos rfl, Work.perform_bind_ok hrecorded]
  rfl

theorem perform_groundTuple_left {distinct : Bool} {t : List Tree} (hkeeps : keepsChoice distinct t = .ok false)
    (g : Grounding) (ts : List (List Tree)) :
    (a.groundEach .ok groups distinct vars (t :: ts)).perform g =
      (a.groundEach .ok groups distinct vars ts).perform g := by
  rw [groundEach, Work.each, hkeeps]
  refine Work.perform_bind_ok (a := ()) ?_
  rw [Work.perform_bind_ok (Work.perform_ofExcept _ g)]
  rfl

/-- **Tuples are ground one after the other**: each that is kept adds its ground action. -/
theorem perform_groundEach {distinct : Bool} {kept : List Tree → Bool} {tuples : List (List Tree)}
    (hkeeps : ∀ t ∈ tuples, keepsChoice distinct t = .ok (kept t))
    (hfills : ∀ t ∈ tuples.filter kept, a.Fills groups ⟨vars, t⟩) (g : Grounding) : ∃ grounds fluents,
    (a.groundEach .ok groups distinct vars tuples).perform g =
      (.ok (), ⟨(grounds.map fun b => ⟨b, none⟩).reverse ++ g.actions, fluents⟩) ∧
    List.Forall₂ (a.Becomes groups vars) (tuples.filter kept) grounds := by
  induction tuples generalizing g with
  | nil => exact ⟨[], g.fluents, rfl, .nil⟩
  | cons t ts ih =>
    obtain ⟨ht, hts⟩ := List.forall_mem_cons.1 hkeeps
    by_cases hkept : kept t = true
    · rw [List.filter_cons_of_pos hkept] at hfills ⊢
      obtain ⟨hfill, hfills⟩ := List.forall_mem_cons.1 hfills
      obtain ⟨ground, l, hground⟩ := hfill.succeeds g.fluents
      obtain ⟨grounds, fluents, hrun, hall⟩ := ih hts hfills ⟨⟨ground, none⟩ :: g.actions, l⟩
      refine ⟨ground :: grounds, fluents, ?_, .cons ⟨g.fluents, l, hground⟩ hall⟩
      rw [perform_groundTuple (hkept ▸ ht) hground, hrun]
      simp
    · rw [List.filter_cons_of_neg hkept] at hfills ⊢
      rw [perform_groundTuple_left (Bool.eq_false_iff.2 hkept ▸ ht)]
      exact ih hts hfills g

end Action

/-! ## Tuples of typed parameters -/

open Hierarchy (HoldsNames Acyclic Reaches Known)

section
variable {objects types : Hierarchy}

/-- The objects of an extension are names if all declared objects are. -/
theorem Extension.words (hobjects : objects.HoldsNames) (hacyclic : types.Acyclic) {t : String} {os : List Tree}
    (h : Extension objects types t os) : ∀ o ∈ os, ∃ name, o = .word name := by
  intro o ho
  obtain ⟨s, -, xs, hxs, hmem⟩ := (h.mem_iff hacyclic).1 ho
  exact hobjects _ (Catalog.mem_of_get? hxs) o hmem

/-- Where all types that are reached are known, every type has an extension, and the search ends with it. -/
theorem exists_extensions (hnames : types.HoldsNames) (hacyclic : types.Acyclic) {ps : List (String × String)}
    (hknown : ∀ p ∈ ps, ∀ s, Reaches objects types p.2 s → Known objects types s) :
    ∃ exts, List.Forall₂ (fun p ext => Extension objects types p.2 ext ∧
      Search.Ends objects types ⟨[.word p.2], []⟩ (.ok ext)) ps exts := by
  induction ps with
  | nil => exact ⟨[], .nil⟩
  | cons p ps ih =>
    obtain ⟨hp, hps⟩ := List.forall_mem_cons.1 hknown
    obtain ⟨exts, hexts⟩ := ih hps
    rcases answers_instances hnames hacyclic p.2 with ⟨ext, hext, hextension⟩ | ⟨u, -, hreaches, hunknown⟩
    · have hends : Search.Ends objects types ⟨[.word p.2], []⟩ (instances objects types (.word p.2)) :=
        Search.ends_instances (by rw [hext]; exact nofun)
      exact ⟨ext :: exts, .cons ⟨hextension, hext ▸ hends⟩ hexts⟩
    · exact absurd (hp u hreaches) hunknown

theorem Ranges.read_extensions (hacyclic : types.Acyclic) {ps : List (String × String)} {exts : List (List Tree)}
    (h : List.Forall₂ (fun p ext => Extension objects types p.2 ext) ps exts) :
    ∃ ranges, Ranges.read objects types (ps.map typedVariable) = .ok ranges ∧
      ranges.vars = ps.map (fun p => .word p.1) ∧ ranges.map Prod.snd = exts := by
  induction h with
  | nil => exact ⟨[], rfl, rfl, rfl⟩
  | @cons p ext ps exts hext _ ih =>
    obtain ⟨ranges, hread, hvars, hexts⟩ := ih
    refine ⟨(.word p.1, ext) :: ranges, ?_, ?_, ?_⟩
    · rw [List.map_cons, read_typedVariable, hext.instances_eq hacyclic, hread]
      rfl
    · rw [List.map_cons, ← hvars]
      rfl
    · rw [List.map_cons, hexts]

/-- A tuple of names is kept unless it has to be without repetitions and is not. -/
theorem keepsChoice_words {requirements tuple : List Tree} (hwords : ∀ t ∈ tuple, ∃ name, t = .word name) :
    keepsChoice (asksForDistinct (.list requirements)) tuple =
      .ok (decide (.word ":no-duplicates" ∈ requirements → tuple.Nodup)) := by
  have hlists : tuple.any Tree.isList = false := by
    rw [List.any_eq_false]
    intro t ht
    obtain ⟨name, rfl⟩ := hwords t ht
    simp [Tree.isList]
  have hasks : asksForDistinct (.list requirements) = decide (.word ":no-duplicates" ∈ requirements) := by
    rw [asksForDistinct, Tree.mentions, List.contains_eq_mem]
  by_cases hrequired : .word ":no-duplicates" ∈ requirements
  · simp [keepsChoice, hasks, hrequired, hlists]
  · simp [keepsChoice, hasks, hrequired]

namespace Action

/-- Towing a car, for which a vehicle has to be near it. -/
def tow : Action where
  name := "tow"
  parameters := [("?x", "vehicle"), ("?y", "car")].map typedVariable
  positivePreconditions := [.list [.word "near", .word "?x", .word "?y"]]
  observers := .levels [] []

/-- A parameter that is its own object is not exchanged. -/
example : ((tow.ground .ok [("vehicle", [.word "v"]), ("car", [.word "?y"])] [] false [] 0).perform {}).1 =
    .error (.refused (.standsForItself "?y")) := by
  have hranges : Ranges.read [("vehicle", [.word "v"]), ("car", [.word "?y"])] [] tow.parameters =
      .ok [(.word "?x", [.word "v"]), (.word "?y", [.word "?y"])] := by cbv
  rw [perform_ground (by decide) hranges]
  rfl

end Action
end
end Epistemic
