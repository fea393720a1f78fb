import Epistemic.Proofs.DeclaredFluents
import Epistemic.Proofs.FilledWords
import Epistemic.Proofs.GroundTuples
import Epistemic.Proofs.TrueFluents
/-!
# The instances of predicates

A search that comes to known types only, none of which it would open inside itself, ends with the objects that are
declared where it comes to (`exists_instances`, `mem_instancesWithin`).  The fluents of a task are then the facts of its
initial state and its goals, and each predicate with all tuples of different objects for its variables, unless the name
of the predicate has an operator in it (`MAp.addTask_instances`).
-/
namespace Epistemic

open Relation (ReflTransGen TransGen)
open Hierarchy (Opens Reaches Known)

/-! ## Where a search ends -/

namespace Hierarchy

variable {objects types : Hierarchy} {s t : String}

/-- A search from a type comes to known types only, and opens none of them inside itself. -/
def Searchable (objects types : Hierarchy) (t : String) : Prop :=
  ∀ s, Reaches objects types t s → Known objects types s ∧ ¬ TransGen (Opens objects types) s s

theorem Searchable.opens (h : Searchable objects types t) (hopens : Opens objects types t s) :
    Searchable objects types s :=
  fun u hu => h u (.head hopens hu)

theorem searchable_declared {os : List Tree} (h : objects.get? t = some os) : Searchable objects types t := by
  have hstays : ∀ {s}, ¬ Opens objects types t s := by
    rintro s ⟨hnone, -⟩
    rw [h] at hnone
    cases hnone
  intro s hreaches
  rcases hreaches.cases_head with rfl | ⟨m, hopens, -⟩
  · refine ⟨.inl (mem_keys_of_get? h), fun hcycle => ?_⟩
    obtain ⟨m, hopens, -⟩ := TransGen.head'_iff.1 hcycle
    exact hstays hopens
  · exact absurd hopens hstays

/-- A type is searchable if its subtypes are: a cycle through it would come to one of them. -/
theorem searchable_opened (hkey : t ∈ types.keys) (h : ∀ s, Opens objects types t s → Searchable objects types s) :
    Searchable objects types t := by
  intro s hreaches
  rcases hreaches.cases_head with rfl | ⟨m, hopens, hreaches⟩
  · refine ⟨.inr hkey, fun hcycle => ?_⟩
    obtain ⟨m, hopens, hback⟩ := TransGen.head'_iff.1 hcycle
    exact (h m hopens m .refl).2 (TransGen.tail' hback hopens)
  · exact h m hopens s hreaches

/-- An object that a search from a type finds: one that is declared where it comes to. -/
def Finds (objects types : Hierarchy) : Tree → Tree → Prop
  | .word type, o => ∃ s, Reaches objects types type s ∧ objects.Files s o
  | .list _, _ => False

end Hierarchy

open Hierarchy (Searchable Finds reached)

section
variable {objects types : Hierarchy}

theorem exists_instancesOfEach {fuel : Nat} : ∀ {names : List String},
    (∀ n ∈ names, ∃ os, instancesWithin objects types fuel (.word n) = .ok os) →
    ∃ os, instancesOfEach objects types fuel (names.map .word) = .ok os := by
  intro names
  induction names with
  | nil => exact fun _ => ⟨[], by rw [List.map_nil, instancesOfEach]⟩
  | cons n names ih =>
    intro h
    obtain ⟨⟨os, hos⟩, hrest⟩ := List.forall_mem_cons.1 h
    obtain ⟨rest, hrest⟩ := ih hrest
    exact ⟨os ++ rest, by rw [List.map_cons, instancesOfEach, hos, hrest]; rfl⟩

theorem exists_instancesWithin (hnames : types.HoldsNames) : ∀ (fuel : Nat) {t : String}, Searchable objects types t →
    (reached (Opens objects types) types.keys t).card ≤ fuel →
    ∃ os, instancesWithin objects types fuel (.word t) = .ok os := by
  intro fuel
  induction fuel with
  | zero =>
    intro t hsearchable hcard
    unfold instancesWithin
    rcases (hsearchable t .refl).1 with hkey | hkey
    · rw [Catalog.mem_keys_iff, Catalog.has] at hkey
      obtain ⟨os, hos⟩ := Option.isSome_iff_exists.1 hkey
      exact ⟨os, by rw [hos]⟩
    · have hmem : t ∈ reached (Opens objects types) types.keys t := Hierarchy.mem_reached.2 ⟨hkey, .refl⟩
      rw [Finset.card_eq_zero.1 (Nat.le_zero.1 hcard)] at hmem
      exact absurd hmem (Finset.notMem_empty t)
  | succ fuel ih =>
    intro t hsearchable hcard
    unfold instancesWithin
    cases hobjects : objects.get? t with
    | some os => exact ⟨os, rfl⟩
    | none =>
      cases htypes : types.get? t with
      | none =>
        have hknown := (hsearchable t .refl).1
        simp [Known, Catalog.mem_keys_iff, Catalog.has, hobjects, htypes] at hknown
      | some xs =>
        obtain ⟨subtypes, rfl⟩ := hnames.get? htypes
        simp only [← List.map_reverse]
        refine exists_instancesOfEach fun s hs => ?_
        have hopens : Opens objects types t s := ⟨hobjects, lists_of_mem htypes hs⟩
        have hless := Hierarchy.card_reached_lt (hsearchable t .refl).2 (mem_keys_of_get? htypes) hopens
        exact ih (hsearchable.opens hopens) (by omega)

/-- **A search from a searchable type ends with objects.** -/
theorem exists_instances (hnames : types.HoldsNames) {t : String} (h : Searchable objects types t) :
    ∃ os, instances objects types (.word t) = .ok os := by
  refine exists_instancesWithin hnames _ h ?_
  calc (reached (Opens objects types) types.keys t).card ≤ types.keys.length := Hierarchy.card_reached_le _ _ t
    _ = types.length := List.length_map _

theorem finds_declared {t : String} {os : List Tree} (h : objects.get? t = some os) {o : Tree} :
    Finds objects types (.word t) o ↔ o ∈ os := by
  constructor
  · rintro ⟨s, hreaches, xs, hxs, ho⟩
    rcases hreaches.cases_head with rfl | ⟨m, hopens, -⟩
    · rw [h] at hxs
      cases hxs
      exact ho
    · rw [hopens.1] at h
      cases h
  · exact fun ho => ⟨t, .refl, os, h, ho⟩

theorem finds_opened {t : String} {subtypes : List Tree} (hnone : objects.get? t = none)
    (htypes : types.get? t = some subtypes) {o : Tree} :
    Finds objects types (.word t) o ↔ ∃ x ∈ subtypes, Finds objects types x o := by
  constructor
  · rintro ⟨s, hreaches, hfiles⟩
    rcases hreaches.cases_head with rfl | ⟨m, ⟨-, names, hnames, hm⟩, hreaches⟩
    · obtain ⟨xs, hxs, -⟩ := hfiles
      rw [hnone] at hxs
      cases hxs
    · rw [htypes] at hnames
      cases hnames
      exact ⟨.word m, hm, s, hreaches, hfiles⟩
  · rintro ⟨x, hx, hfinds⟩
    cases x with
    | list xs => exact hfinds.elim
    | word m =>
      obtain ⟨s, hreaches, hfiles⟩ := hfinds
      exact ⟨s, .head ⟨hnone, subtypes, htypes, hx⟩ hreaches, hfiles⟩

theorem mem_instancesOfEach {fuel : Nat} {o : Tree}
    (h : ∀ {t found}, instancesWithin objects types fuel t = .ok found → (o ∈ found ↔ Finds objects types t o)) :
    ∀ {ts os : List Tree}, instancesOfEach objects types fuel ts = .ok os →
      (o ∈ os ↔ ∃ t ∈ ts, Finds objects types t o) := by
  intro ts
  induction ts with
  | nil =>
    intro os hos
    rw [instancesOfEach] at hos
    cases hos
    simp
  | cons t ts ih =>
    intro os hos
    rw [instancesOfEach] at hos
    cases hfound : instancesWithin objects types fuel t with
    | error e => rw [hfound] at hos; cases hos
    | ok found =>
      cases hrest : instancesOfEach objects types fuel ts with
      | error e => rw [hfound, hrest] at hos; cases hos
      | ok rest =>
        rw [hfound, hrest] at hos
        cases hos
        rw [List.mem_append, h hfound, ih hrest]
        simp

theorem mem_instancesWithin {o : Tree} : ∀ {fuel : Nat} {t : Tree} {os : List Tree},
    instancesWithin objects types fuel t = .ok os → (o ∈ os ↔ Finds objects types t o) := by
  intro fuel
  induction fuel with
  | zero =>
    intro t os h
    unfold instancesWithin at h
    split at h
    · cases h
    · split at h
      · cases h
        exact (finds_declared ‹_›).symm
      · split at h <;> cases h
  | succ fuel ih =>
    intro t os h
    unfold instancesWithin at h
    split at h
    · cases h
    · split at h
      · cases h
        exact (finds_declared ‹_›).symm
      · split at h
        · cases h
        · rw [mem_instancesOfEach ih h, finds_opened ‹_› ‹_›]
          simp

end

/-! ## The objects of variables -/

section
variable {objects types : Hierarchy}

theorem word_of_finds (hobjects : objects.HoldsNames) {type o : Tree} (h : Finds objects types type o) :
    ∃ n, o = .word n := by
  cases type with
  | list xs => exact h.elim
  | word t =>
    obtain ⟨s, -, xs, hxs, ho⟩ := h
    exact hobjects _ (Catalog.mem_of_get? hxs) o ho

theorem Ranges.read_pair (v type : Tree) (ps : List Tree) : read objects types (.list [v, type] :: ps) = (do
    let found ← instances objects types type
    let rest ← read objects types ps
    return (v, found) :: rest) := rfl

/-- A tuple of objects for variables: each is found for the type of its variable. -/
def IsTuple (objects types : Hierarchy) (vars : Catalog Tree) (os : List String) : Prop :=
  List.Forall₂ (fun v o => Finds objects types v.2 (.word o)) vars os

/-- **Variables of searchable types range over all tuples.** -/
theorem exists_read (hobjects : objects.HoldsNames) (htypes : types.HoldsNames) : ∀ {vars : Catalog Tree},
    (∀ v ∈ vars, ∃ type, v.2 = .word type ∧ Searchable objects types type) →
    ∃ ranges, Ranges.read objects types (vars.map fun (v, type) => .list [.word v, type]) = .ok ranges ∧
      ranges.vars = vars.keys.map .word ∧
      ∀ choice, choice ∈ ranges.assignments ↔
        ∃ os : List String, choice = os.map .word ∧ IsTuple objects types vars os := by
  intro vars
  induction vars with
  | nil =>
    intro _
    refine ⟨[], rfl, rfl, fun choice => ?_⟩
    rw [Ranges.assignments, List.map_nil, choices, List.mem_singleton]
    constructor
    · rintro rfl
      exact ⟨[], rfl, .nil⟩
    · rintro ⟨os, rfl, h⟩
      cases h
      rfl
  | cons v vars ih =>
    intro h
    obtain ⟨⟨type, htype, hsearchable⟩, hvars⟩ := List.forall_mem_cons.1 h
    obtain ⟨ranges, hread, hranges, hassignments⟩ := ih hvars
    obtain ⟨found, hfound⟩ := exists_instances htypes hsearchable
    have hfinds : ∀ o, o ∈ found ↔ Finds objects types v.2 o := fun o => htype ▸ mem_instancesWithin hfound
    refine ⟨(.word v.1, found) :: ranges, ?_, ?_, fun choice => ?_⟩
    · show Ranges.read objects types (.list [.word v.1, v.2] :: _) = _
      rw [Ranges.read_pair, htype, hfound, hread]
      rfl
    · rw [Ranges.vars, List.map_cons, ← Ranges.vars, hranges]
      rfl
    · rw [Ranges.assignments, List.map_cons, choices, List.mem_flatMap]
      constructor
      · rintro ⟨o, ho, hchoice⟩
        obtain ⟨rest, hrest, rfl⟩ := List.mem_map.1 hchoice
        obtain ⟨os, rfl, htuple⟩ := (hassignments rest).1 hrest
        have ho := (hfinds o).1 ho
        obtain ⟨n, rfl⟩ := word_of_finds hobjects ho
        exact ⟨n :: os, rfl, .cons ho htuple⟩
      · rintro ⟨os, rfl, htuple⟩
        cases htuple with
        | @cons _ o _ os ho htuple =>
          exact ⟨.word o, (hfinds _).2 ho, List.mem_map.2 ⟨os.map .word, (hassignments _).2 ⟨os, rfl, htuple⟩, rfl⟩⟩

end

/-! ## Names with objects -/

theorem Assignment.map_objectFor_self {vars objects : List String} (hnodup : vars.Nodup)
    (hlength : objects.length = vars.length) : vars.map (objectFor vars objects) = objects := by
  refine List.ext_getElem (by simp [hlength]) fun k hk hk' => ?_
  rw [List.getElem_map]
  have hk : k < vars.length := by simpa using hk
  exact objectFor_getElem hnodup (List.getElem?_eq_getElem hk) (List.getElem?_eq_getElem hk')

namespace MAp

/-- What the predicates of a domain need to be filled in: variables that differ from each other and from the name, types
whose search ends, and objects that are neither variables nor operators. -/
structure Instantiable (d : Domain) : Prop where
  objectNames : d.objects.HoldsNames
  typeNames : d.types.HoldsNames
  distinct : ∀ e ∈ d.predicates, e.2.keys.Nodup ∧ e.1 ∉ e.2.keys
  searchable : ∀ e ∈ d.predicates, ∀ v ∈ e.2, ∃ type, v.2 = .word type ∧ Searchable d.objects d.types type
  apart : ∀ e ∈ d.predicates, ∀ type o, d.objects.Files type (.word o) → o ∉ e.2.keys
  plain : ∀ type o, d.objects.Files type (.word o) → Literals.isOperator (.word o) = false

theorem operator?_of_isOperator {w : String} (h : Literals.isOperator (.word w) = true) :
    ∃ op, operator? (.word w) = .ok (some op) := by
  rw [Literals.isOperator, Bool.or_eq_true] at h
  unfold operator?
  by_cases hcommon : (Tree.word w).hasCommonBelief = true
  · exact ⟨_, by simp only [hcommon, if_true]; rfl⟩
  · have hbelief := h.resolve_right hcommon
    exact ⟨w, by simp [hcommon, hbelief]⟩

/-- An operator before words that are none is written, if there is such a word. -/
theorem exists_formula_operator {w : String} (hop : Literals.isOperator (.word w) = true) {ws : List String}
    (hne : ws ≠ []) (hws : ∀ u ∈ ws, Literals.isOperator (.word u) = false) :
    ∃ text, formula (.list ((w :: ws).map .word)) = .ok text := by
  obtain ⟨op, hop⟩ := operator?_of_isOperator hop
  obtain ⟨u, us, rfl⟩ := List.exists_cons_of_ne_nil hne
  have hbehind : behindOperator ((u :: us).map .word) = .ok ("", 0) := by
    rw [List.map_cons, behindOperator, enclosed]
  refine ⟨op ++ "" ++ (String.intercalate "_" (u :: us) ++ closings 1), ?_⟩
  rw [formula, Tree.items, List.map_cons, formulaFrom, hop]
  simp only [hbehind]
  rw [formulaFrom_words _ hws]
  rfl

section
variable {d : Domain} (h : Instantiable d) {e : String × Catalog Tree} (he : e ∈ d.predicates) {os : List String}
  (htuple : IsTuple d.objects d.types e.2 os)

include htuple in
theorem files_of_tuple {o : String} (ho : o ∈ os) : ∃ type, d.objects.Files type (.word o) := by
  obtain ⟨v, -, hfinds⟩ := exists_of_mem_right htuple ho
  cases htype : v.2 with
  | list xs => rw [htype] at hfinds; exact hfinds.elim
  | word t =>
    rw [htype] at hfinds
    obtain ⟨s, -, hfiles⟩ := hfinds
    exact ⟨s, hfiles⟩

include h htuple

theorem Instantiable.plain_tuple : ∀ o ∈ os, Literals.isOperator (.word o) = false := by
  intro o ho
  obtain ⟨type, hfiles⟩ := files_of_tuple htuple ho
  exact h.plain type o hfiles

/-- **The name of an instance is that of its predicate with the objects behind it**, unless it has an operator. -/
theorem Instantiable.names_iff {n : String} : Names (.list ((e.1 :: os).map .word)) n ↔
    Literals.isOperator (.word e.1) = false ∧ n = String.intercalate "_" (e.1 :: os) := by
  cases hop : Literals.isOperator (.word e.1) with
  | true =>
    refine ⟨fun hnames => ?_, nofun⟩
    have hmarked := hasOperator_of_formula rfl hop hnames.1
    rw [hnames.2] at hmarked
    cases hmarked
  | false =>
    have hwords : ∀ w ∈ e.1 :: os, Literals.isOperator (.word w) = false :=
      List.forall_mem_cons.2 ⟨hop, h.plain_tuple htuple⟩
    rw [Names, formula_words hwords, Except.ok.injEq]
    constructor
    · rintro ⟨rfl, -⟩
      exact ⟨rfl, rfl⟩
    · rintro ⟨-, rfl⟩
      exact ⟨rfl, isOperator_intercalate hwords⟩

theorem Instantiable.exists_formula (hop : Literals.isOperator (.word e.1) = true → e.2 ≠ []) :
    ∃ text, formula (.list ((e.1 :: os).map .word)) = .ok text := by
  have hplain := h.plain_tuple htuple
  cases hname : Literals.isOperator (.word e.1) with
  | false => exact ⟨_, formula_words (List.forall_mem_cons.2 ⟨hname, hplain⟩)⟩
  | true =>
    refine exists_formula_operator hname (fun hnil => ?_) hplain
    rw [hnil] at htuple
    exact hop hname (List.forall₂_nil_right_iff.1 htuple)

include he

/-- **Filling in a tuple leaves the name and puts the objects behind it.** -/
theorem Instantiable.fillItems : Assignment.fillItems (e.2.keys.map .word) (os.map .word)
    (.word e.1 :: e.2.keys.map .word) = .ok ((e.1 :: os).map .word) := by
  obtain ⟨hnodup, hname⟩ := h.distinct e he
  have hlength : os.length = e.2.keys.length := by
    rw [Catalog.keys, List.length_map]
    exact htuple.length_eq.symm
  have hapart : ∀ o ∈ os, o ∉ e.2.keys := by
    intro o ho
    obtain ⟨type, hfiles⟩ := files_of_tuple htuple ho
    exact h.apart e he type o hfiles
  have hfill := Assignment.fillItems_names (e.1 :: e.2.keys) hlength hapart
  rw [← List.map_map, List.map_cons, List.map_cons, Assignment.objectFor_of_not_mem hname,
    Assignment.map_objectFor_self hnodup hlength] at hfill
  exact hfill

end

section
variable {d : Domain} (h : Instantiable d)
include h

theorem Instantiable.exists_ranges {e : String × Catalog Tree} (he : e ∈ d.predicates) :
    ∃ ranges, Ranges.read d.objects d.types (e.2.map fun (v, type) => .list [.word v, type]) = .ok ranges ∧
      ranges.vars = e.2.keys.map .word ∧
      ∀ choice, choice ∈ ranges.assignments ↔
        ∃ os : List String, choice = os.map .word ∧ IsTuple d.objects d.types e.2 os :=
  exists_read h.objectNames h.typeNames (h.searchable e he)

/-- **The instances of predicates are named by tuples of different objects.** -/
theorem Instantiable.names_instance_iff {n : String} : (∃ c, IsInstance d c ∧ Names c n) ↔
    ∃ e ∈ d.predicates, Literals.isOperator (.word e.1) = false ∧
      ∃ os, IsTuple d.objects d.types e.2 os ∧ os.Nodup ∧ n = String.intercalate "_" (e.1 :: os) := by
  constructor
  · rintro ⟨_, ⟨e, he, ranges, choice, items, hread, hchoice, hnodup, hitems, rfl⟩, hnames⟩
    obtain ⟨ranges', hread', hvars, hassignments⟩ := h.exists_ranges he
    rw [hread] at hread'
    cases hread'
    obtain ⟨os, rfl, htuple⟩ := (hassignments choice).1 hchoice
    rw [hvars, h.fillItems he htuple] at hitems
    cases hitems
    obtain ⟨hop, hn⟩ := (h.names_iff htuple).1 hnames
    exact ⟨e, he, hop, os, htuple, hnodup.of_map, hn⟩
  · rintro ⟨e, he, hop, os, htuple, hnodup, hn⟩
    obtain ⟨ranges, hread, hvars, hassignments⟩ := h.exists_ranges he
    have hchoice := (hassignments (os.map .word)).2 ⟨os, rfl, htuple⟩
    refine ⟨.list ((e.1 :: os).map .word), ⟨e, he, ranges, os.map .word, _, hread, hchoice, ?_, ?_, rfl⟩,
      (h.names_iff htuple).2 ⟨hop, hn⟩⟩
    · exact hnodup.map fun _ _ => Tree.word.inj
    · rw [hvars]
      exact h.fillItems he htuple

end

/-! ## Adding the fluents of a task -/

theorem succeeds_addFluent {c : Tree} {text : String} (h : formula c = .ok text) : Work.Succeeds (addFluent c) := by
  intro known
  rw [addFluent, h, Work.perform_bind_ok (Work.perform_ofExcept _ _)]
  cases hasOperator text with
  | true => exact ⟨(), known, rfl⟩
  | false => exact ⟨(), text :: known, rfl⟩

theorem succeeds_ofExcept_bind {α : Type} {r : Except Fault α} {a : α} (hr : r = .ok a) {f : α → Work Fluents Unit}
    (hf : Work.Succeeds (f a)) : Work.Succeeds (Work.ofExcept r >>= f) := by
  intro known
  rw [hr, Work.perform_bind_ok (Work.perform_ofExcept _ _)]
  exact hf known

theorem keepsChoice_words (os : List String) :
    keepsChoice true (os.map .word) = .ok (decide (os.map Tree.word).Nodup) := by
  have hwords : (os.map Tree.word).any Tree.isList = false := by simp [Tree.isList]
  rw [keepsChoice, if_pos rfl, hwords]
  rfl

section
variable {d : Domain} (h : Instantiable d)
include h

theorem Instantiable.succeeds_addPredicate {e : String × Catalog Tree} (he : e ∈ d.predicates)
    (hop : Literals.isOperator (.word e.1) = true → e.2 ≠ []) :
    Work.Succeeds (addPredicate d.objects d.types e.1 e.2) := by
  obtain ⟨ranges, hread, hvars, hassignments⟩ := h.exists_ranges he
  refine succeeds_ofExcept_bind hread (Work.Succeeds.each fun choice hchoice => ?_)
  obtain ⟨os, rfl, htuple⟩ := (hassignments choice).1 hchoice
  refine succeeds_ofExcept_bind (keepsChoice_words os) ?_
  by_cases hnodup : (os.map Tree.word).Nodup
  · rw [if_pos (decide_eq_true hnodup)]
    obtain ⟨text, htext⟩ := h.exists_formula htuple hop
    refine succeeds_ofExcept_bind ?_ (succeeds_addFluent htext)
    rw [hvars]
    exact h.fillItems he htuple
  · rw [if_neg (by simpa using hnodup)]
    exact .ofPure ()

theorem Instantiable.succeeds_addTask {t : Task} {p : Problem} (hd : t.domain = some d) (hp : t.problem = some p)
    (hwritten : ∀ c ∈ p.state ++ p.positiveGoals ++ p.negativeGoals, ∃ text, formula c = .ok text)
    (hoperators : ∀ e ∈ d.predicates, Literals.isOperator (.word e.1) = true → e.2 ≠ []) :
    Work.Succeeds (addTask t) := by
  have hproblem : t.needProblem = .ok p := by rw [Task.needProblem, hp]
  have hdomain : t.needDomain = .ok d := by rw [Task.needDomain, hd]
  have hformulas : ∀ {cs : List Tree}, (∀ c ∈ cs, ∃ text, formula c = .ok text) →
      Work.Succeeds (Work.each addFluent cs) := by
    intro cs hcs
    refine .each fun c hc => ?_
    obtain ⟨text, htext⟩ := hcs c hc
    exact succeeds_addFluent htext
  rw [List.forall_mem_append, List.forall_mem_append] at hwritten
  obtain ⟨⟨hstate, hpositive⟩, hnegative⟩ := hwritten
  refine succeeds_ofExcept_bind hproblem ((hformulas hstate).bind fun _ => (hformulas hpositive).bind fun _ =>
    (hformulas hnegative).bind fun _ => succeeds_ofExcept_bind hdomain (.each fun e he => ?_))
  exact h.succeeds_addPredicate he (hoperators e he)

/-- **Every search for the objects of a variable ends with those that are declared where it comes to.** -/
theorem Instantiable.ends_search {e : String × Catalog Tree} (he : e ∈ d.predicates) {v : String × Tree}
    (hv : v ∈ e.2) :
    ∃ found, Search.Ends d.objects d.types ⟨[v.2], []⟩ (.ok found) ∧
      ∀ o, o ∈ found ↔ Finds d.objects d.types v.2 o := by
  obtain ⟨type, htype, hsearchable⟩ := h.searchable e he v hv
  obtain ⟨found, hfound⟩ := exists_instances h.typeNames hsearchable
  have hends : Search.Ends d.objects d.types ⟨[.word type], []⟩ (instances d.objects d.types (.word type)) :=
    Search.ends_instances (by rw [hfound]; exact nofun)
  rw [hfound] at hends
  rw [htype]
  exact ⟨found, hends, fun o => mem_instancesWithin hfound⟩

end

/-- **The fluents of a task.**  Where the predicates of the domain can be filled in and the formulas of the problem can
be written, adding the fluents of the task goes well.  It adds the names of the formulas without operators and, for each
predicate without an operator in its name, that name before all tuples of different objects that the searches for its
variables end with, and nothing else. -/
theorem addTask_instances {t : Task} {d : Domain} {p : Problem} (hd : t.domain = some d) (hp : t.problem = some p)
    (h : Instantiable d)
    (hwritten : ∀ c ∈ p.state ++ p.positiveGoals ++ p.negativeGoals, ∃ text, formula c = .ok text)
    (hoperators : ∀ e ∈ d.predicates, Literals.isOperator (.word e.1) = true → e.2 ≠ []) :
    (∀ e ∈ d.predicates, ∀ v ∈ e.2, ∃ found, Search.Ends d.objects d.types ⟨[v.2], []⟩ (.ok found) ∧
      ∀ o, o ∈ found ↔ Finds d.objects d.types v.2 o) ∧
    ∀ known, ∃ known', (addTask t).perform known = (.ok (), known') ∧ ∀ n, n ∈ known' ↔ n ∈ known ∨
      (∃ c ∈ p.state ++ p.positiveGoals ++ p.negativeGoals, Names c n) ∨
      ∃ e ∈ d.predicates, Literals.isOperator (.word e.1) = false ∧
        ∃ os, IsTuple d.objects d.types e.2 os ∧ os.Nodup ∧ n = String.intercalate "_" (e.1 :: os) := by
  refine ⟨fun e he v hv => h.ends_search he hv, fun known => ?_⟩
  obtain ⟨_, known', hrun⟩ := h.succeeds_addTask hd hp hwritten hoperators known
  refine ⟨known', hrun, fun n => ?_⟩
  have hmem := gathers_addTask hd hp known known' hrun n
  rw [IsTaskFluent, h.names_instance_iff] at hmem
  exact hmem.trans or_comm

/-- Tools are things, and there are two of them. -/
def toolDomain : Domain where
  types := [("thing", [.word "tool"])]
  objects := [("tool", [.word "saw", .word "axe"])]
  predicates := [("beside", [("?x", .word "thing"), ("?y", .word "tool")]), ("tail", [])]

def toolProblem : Problem where
  state := [.list [.word "tail"]]
  positiveGoals := [.list [.word "B(a,", .word "tail"]]

theorem files_single {type other : String} {names : List String} {o : String}
    (h : Hierarchy.Files [(type, names.map .word)] other (.word o)) : o ∈ names := by
  obtain ⟨xs, hxs, ho⟩ := h
  obtain ⟨-, rfl⟩ := Prod.mk.inj (List.mem_singleton.1 (Catalog.mem_of_get? hxs))
  simpa using ho

theorem instantiable_toolDomain : Instantiable toolDomain where
  objectNames := by simp [Hierarchy.HoldsNames, toolDomain]
  typeNames := by simp [Hierarchy.HoldsNames, toolDomain]
  distinct := by decide
  searchable := by
    have htool : Searchable toolDomain.objects toolDomain.types "tool" := Hierarchy.searchable_declared rfl
    have hthing : Searchable toolDomain.objects toolDomain.types "thing" := by
      refine Hierarchy.searchable_opened (by decide) ?_
      rintro s ⟨-, names, hnames, hs⟩
      cases hnames
      cases List.mem_singleton.1 hs
      exact htool
    refine List.forall_mem_cons.2 ⟨?_, List.forall_mem_singleton.2 (List.forall_mem_nil _)⟩
    exact List.forall_mem_cons.2 ⟨⟨_, rfl, hthing⟩, List.forall_mem_singleton.2 ⟨_, rfl, htool⟩⟩
  apart := by
    intro e he type o hfiles
    have hapart : ∀ o ∈ ["saw", "axe"], ∀ e ∈ toolDomain.predicates, o ∉ e.2.keys := by decide
    exact hapart o (files_single hfiles) e he
  plain := by
    intro type o hfiles
    have hplain : ∀ o ∈ ["saw", "axe"], Literals.isOperator (.word o) = false := by decide
    exact hplain o (files_single hfiles)

theorem addTask_instances_tools : ∃ known', (addTask
      { dialect := .levels, domain := some toolDomain, problem := some toolProblem }).perform ["shut"] =
        (.ok (), known') ∧
    "shut" ∈ known' ∧ "tail" ∈ known' ∧ "beside_saw_axe" ∈ known' ∧ "beside_saw_saw" ∉ known' := by
  have htail : formula (.list [.word "tail"]) = .ok "tail" := by decide +kernel
  have hbelieved : formula (.list [.word "B(a,", .word "tail"]) = .ok "B(a,tail)" := by decide +kernel
  have hwritten : ∀ c ∈ toolProblem.state ++ toolProblem.positiveGoals ++ toolProblem.negativeGoals,
      ∃ text, formula c = .ok text := List.forall_mem_cons.2 ⟨⟨_, htail⟩, List.forall_mem_singleton.2 ⟨_, hbelieved⟩⟩
  obtain ⟨-, hrun⟩ := addTask_instances
    (t := { dialect := .levels, domain := some toolDomain, problem := some toolProblem }) rfl rfl
    instantiable_toolDomain hwritten (by decide)
  obtain ⟨known', hrun, hmem⟩ := hrun ["shut"]
  have hsaw : Hierarchy.Files toolDomain.objects "tool" (.word "saw") := ⟨_, rfl, by decide⟩
  have haxe : Hierarchy.Files toolDomain.objects "tool" (.word "axe") := ⟨_, rfl, by decide⟩
  have hopens : Opens toolDomain.objects toolDomain.types "thing" "tool" := ⟨rfl, _, rfl, by decide⟩
  refine ⟨known', hrun, (hmem _).2 (.inl (by decide)),
    (hmem _).2 (.inr (.inl ⟨_, by decide, htail, by decide +kernel⟩)),
    (hmem _).2 (.inr (.inr ⟨_, List.mem_cons_self, by decide +kernel, ["saw", "axe"], ?_, by decide,
      by decide +kernel⟩)), fun hn => ?_⟩
  · exact .cons ⟨"tool", .single hopens, hsaw⟩ (.cons ⟨"tool", .refl, haxe⟩ .nil)
  · rcases (hmem _).1 hn with hn | ⟨c, hc, hn, -⟩ | ⟨e, he, -, os, htuple, hnodup, hn⟩
    · exact absurd hn (by decide)
    · rcases List.mem_cons.1 hc with rfl | hc
      · exact absurd (Except.ok.inj (htail.symm.trans hn)) (by decide)
      · rw [List.mem_singleton.1 hc, hbelieved] at hn
        exact absurd (Except.ok.inj hn) (by decide)
    · have hnames : ∀ o ∈ os, o ∈ ["saw", "axe"] := by
        intro o ho
        obtain ⟨type, hfiles⟩ := files_of_tuple htuple ho
        exact files_single hfiles
      have hdiffer : ∀ x ∈ ["saw", "axe"], ∀ y ∈ ["saw", "axe"], [x, y].Nodup →
          "beside_saw_saw" ≠ String.intercalate "_" ["beside", x, y] := by decide +kernel
      rcases List.mem_cons.1 he with rfl | he
      · obtain ⟨x, y, rfl⟩ := List.length_eq_two.1 htuple.length_eq.symm
        exact hdiffer x (hnames x (by simp)) y (hnames y (by simp)) hnodup hn
      · cases List.mem_singleton.1 he
        cases htuple
        exact absurd hn (by decide +kernel)

/-- A predicate that is named like a belief. -/
def markedDomain : Domain where
  objects := [("object", [.word "o"])]
  predicates := [("B(a,", [("?x", .word "object")])]

theorem instantiable_markedDomain : Instantiable markedDomain where
  objectNames := by simp [Hierarchy.HoldsNames, markedDomain]
  typeNames := by simp [Hierarchy.HoldsNames, markedDomain]
  distinct := by decide
  searchable := List.forall_mem_singleton.2 (List.forall_mem_singleton.2 ⟨_, rfl, Hierarchy.searchable_declared rfl⟩)
  apart := by
    intro e he type o hfiles
    have hapart : ∀ o ∈ ["o"], ∀ e ∈ markedDomain.predicates, o ∉ e.2.keys := by decide
    exact hapart o (files_single hfiles) e he
  plain := by
    intro type o hfiles
    have hplain : ∀ o ∈ ["o"], Literals.isOperator (.word o) = false := by decide
    exact hplain o (files_single hfiles)

/-- **An operator in the name of a predicate hides its instances.** -/
theorem addTask_marked_name : Instantiable markedDomain ∧
    (∃ e ∈ markedDomain.predicates, ∃ os, IsTuple markedDomain.objects markedDomain.types e.2 os ∧ os.Nodup ∧
      "B(a,_o" = String.intercalate "_" (e.1 :: os)) ∧
    ∃ known', (addTask { dialect := .levels, domain := some markedDomain, problem := some {} }).perform [] =
      (.ok (), known') ∧ "B(a,_o" ∉ known' := by
  have h := instantiable_markedDomain
  refine ⟨h, ⟨_, List.mem_singleton_self _, ["o"], ?_, by decide, by decide +kernel⟩, ?_⟩
  · exact .cons ⟨"object", .refl, _, rfl, by decide⟩ .nil
  · obtain ⟨_, known', hrun⟩ := h.succeeds_addTask
      (t := { dialect := .levels, domain := some markedDomain, problem := some {} }) rfl rfl (List.forall_mem_nil _)
      (by decide) []
    refine ⟨known', hrun, fun hmem => ?_⟩
    rcases (gathers_addTask rfl rfl [] known' hrun _).1 hmem with (⟨c, hc, -⟩ | hinstance) | hmem
    · cases hc
    · obtain ⟨e, he, hop, -⟩ := h.names_instance_iff.1 hinstance
      cases List.mem_singleton.1 he
      exact absurd hop (by decide +kernel)
    · cases hmem

end MAp
end Epistemic
