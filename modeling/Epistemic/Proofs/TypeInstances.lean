import Epistemic.Proofs.GroundActions
import Epistemic.Proofs.Subtypes
import Mathlib.Data.Finset.Card
/-!
# The instances of a type

Where no type stands below itself, a type has fewer types below it than any type that it is declared under, so types are
opened one inside the other only so often (`Hierarchy.Acyclic.rank_lt`), and the instances of a type are what its own
declaration says or what its subtypes have (`Extension.instances_eq`).  The search ends at the first types that have
objects of their own: it finds all objects below a type exactly if none is declared only below such a type
(`Ranges.read_exact_iff`).
-/
namespace Epistemic

open Relation (ReflTransGen TransGen)

namespace Hierarchy

variable {h objects types : Hierarchy} {s t : String}

/-- Whether a tree is declared directly under a type. -/
def Files (h : Hierarchy) (type : String) (x : Tree) : Prop := ∃ xs, h.get? type = some xs ∧ x ∈ xs

/-- A hierarchy in which only names are declared. -/
def HoldsNames (h : Hierarchy) : Prop := ∀ e ∈ h, ∀ x ∈ e.2, ∃ name, x = .word name

/-- No type stands below itself. -/
def Acyclic (h : Hierarchy) : Prop := ∀ t, ¬ TransGen h.Lists t t

theorem acyclic_of_not_mem_keys (hleaves : ∀ e ∈ h, ∀ x ∈ e.2, ∀ name, x = .word name → name ∉ h.keys) : h.Acyclic := by
  intro t hcycle
  obtain ⟨_, hfirst, -⟩ := TransGen.head'_iff.1 hcycle
  obtain ⟨_, -, names, hget, hlast⟩ := TransGen.tail'_iff.1 hcycle
  exact hleaves _ (Catalog.mem_of_get? hget) _ hlast t rfl (mem_keys_of_lists hfirst)

/-! ## Types below a type -/

section
variable {R : String → String → Prop} {names : List String}

open Classical in
/-- The names of a list that a relation leads to. -/
noncomputable def reached (R : String → String → Prop) (names : List String) (t : String) : Finset String :=
  names.toFinset.filter fun k => ReflTransGen R t k

theorem mem_reached {k : String} : k ∈ reached R names t ↔ k ∈ names ∧ ReflTransGen R t k := by
  simp [reached]

theorem card_reached_le (R : String → String → Prop) (names : List String) (t : String) :
    (reached R names t).card ≤ names.length := by
  calc (reached R names t).card ≤ names.toFinset.card :=
        Finset.card_le_card fun k hk => List.mem_toFinset.2 (mem_reached.1 hk).1
    _ ≤ names.length := List.toFinset_card_le _

/-- **A step that leads to no cycle leads to fewer names.** -/
theorem card_reached_lt (hcycle : ¬ TransGen R t t) (hname : t ∈ names) (hstep : R t s) :
    (reached R names s).card < (reached R names t).card := by
  refine Finset.card_lt_card ((Finset.ssubset_iff_of_subset fun k hk => ?_).2 ⟨t, ?_, fun ht => ?_⟩)
  · obtain ⟨hkey, hpath⟩ := mem_reached.1 hk
    exact mem_reached.2 ⟨hkey, .head hstep hpath⟩
  · exact mem_reached.2 ⟨hname, .refl⟩
  · exact hcycle (TransGen.head' hstep (mem_reached.1 ht).2)

end

/-- How many types a type has at it or below it that have types below them. -/
noncomputable def rank (h : Hierarchy) (t : String) : Nat := (reached h.Lists h.keys t).card

theorem rank_le_length (h : Hierarchy) (t : String) : h.rank t ≤ h.length := by
  calc h.rank t ≤ h.keys.length := card_reached_le h.Lists h.keys t
    _ = h.length := List.length_map _

/-- **A subtype has fewer types below it.** -/
theorem Acyclic.rank_lt (hacyclic : h.Acyclic) (hl : h.Lists t s) : h.rank s < h.rank t :=
  card_reached_lt (hacyclic t) (mem_keys_of_lists hl) hl

theorem Acyclic.wellFounded (hacyclic : h.Acyclic) : WellFounded fun s t => h.Lists t s :=
  Subrelation.wf hacyclic.rank_lt (InvImage.wf h.rank Nat.lt_wfRel.wf)

/-! ## Types that a search reaches -/

/-- A search opens a type that has no objects of its own into its subtypes. -/
def Opens (objects types : Hierarchy) (t s : String) : Prop := objects.get? t = none ∧ types.Lists t s

/-- A search that begins at a type comes to another. -/
def Reaches (objects types : Hierarchy) : String → String → Prop := ReflTransGen (Opens objects types)

/-- A type that has objects of its own, or subtypes. -/
def Known (objects types : Hierarchy) (t : String) : Prop := t ∈ objects.keys ∨ t ∈ types.keys

end Hierarchy

open Hierarchy (Files HoldsNames Acyclic Opens Reaches Known)

section
variable {objects types : Hierarchy}

/-! ## The bound does not bind -/

theorem instancesOfEach_congr {fuel fuel' : Nat} : ∀ {ts : List Tree},
    (∀ t ∈ ts, instancesWithin objects types fuel t = instancesWithin objects types fuel' t) →
    instancesOfEach objects types fuel ts = instancesOfEach objects types fuel' ts
  | [], _ => by rw [instancesOfEach, instancesOfEach]
  | t :: ts, h => by
    obtain ⟨ht, hts⟩ := List.forall_mem_cons.1 h
    rw [instancesOfEach, instancesOfEach, ht, instancesOfEach_congr hts]

/-- A type can be opened as often as it has types below it, and it makes no difference if it may be opened more often.
-/
theorem instancesWithin_congr (hacyclic : types.Acyclic) : ∀ (fuel fuel' : Nat) (t : Tree),
    (∀ type, t = .word type → types.rank type ≤ fuel ∧ types.rank type ≤ fuel') →
    instancesWithin objects types fuel t = instancesWithin objects types fuel' t
  | fuel, fuel', .list xs, _ => by rw [instancesWithin, instancesWithin]
  | fuel, fuel', .word type, henough => by
    obtain ⟨hle, hle'⟩ := henough type rfl
    unfold instancesWithin
    cases hobjects : objects.get? type with
    | some os => rfl
    | none =>
      cases htypes : types.get? type with
      | none => rfl
      | some subtypes =>
        have hpos : 0 < types.rank type := Finset.card_pos.2 ⟨type, Hierarchy.mem_reached.2 ⟨?_, .refl⟩⟩
        · cases fuel with
          | zero => omega
          | succ fuel =>
            cases fuel' with
            | zero => omega
            | succ fuel' =>
              refine instancesOfEach_congr fun s hs => instancesWithin_congr hacyclic fuel fuel' s fun name hname => ?_
              have hlt := hacyclic.rank_lt (⟨subtypes, htypes, hname ▸ List.mem_reverse.1 hs⟩ : types.Lists type name)
              omega
        · rw [Catalog.mem_keys_iff, Catalog.has, htypes]
          rfl

theorem instances_declared {type : String} {os : List Tree} (h : objects.get? type = some os) :
    instances objects types (.word type) = .ok os := by
  rw [instances, instancesWithin, h]

theorem instances_unknown {type : String} (hobjects : objects.get? type = none) (htypes : types.get? type = none) :
    instances objects types (.word type) = .error (.refused (.unknownType type)) := by
  rw [instances, instancesWithin, hobjects]
  simp only [htypes]

/-- **A type without objects of its own has the instances of its subtypes**, from the last subtype to the first. -/
theorem instances_opened (hacyclic : types.Acyclic) {type : String} {subtypes : List Tree}
    (hobjects : objects.get? type = none) (htypes : types.get? type = some subtypes) :
    instances objects types (.word type) = instancesOfEach objects types types.length subtypes.reverse := by
  have hmore : instances objects types (.word type) = instancesWithin objects types (types.length + 1) (.word type) :=
    instancesWithin_congr hacyclic _ _ _ fun name _ =>
      ⟨types.rank_le_length name, Nat.le_succ_of_le (types.rank_le_length name)⟩
  rw [hmore, instancesWithin, hobjects]
  simp only [htypes]

/-! ## Extensions -/

/-- The extension of a type: the objects declared under it or, if it has none of its own, the extensions of its
subtypes one behind the other, from the last subtype to the first. -/
inductive Extension (objects types : Hierarchy) : String → List Tree → Prop
  | declared {type : String} {os : List Tree} (h : objects.get? type = some os) : Extension objects types type os
  | opened {type : String} {subtypes : List String} {exts : List (List Tree)} (hnone : objects.get? type = none)
      (htypes : types.get? type = some (subtypes.map .word))
      (h : List.Forall₂ (Extension objects types) subtypes.reverse exts) : Extension objects types type exts.flatten

theorem Hierarchy.HoldsNames.get? {h : Hierarchy} (hnames : h.HoldsNames) {type : String} {xs : List Tree}
    (hget : h.get? type = some xs) : ∃ names : List String, xs = names.map .word := by
  have hwords : ∀ x ∈ xs, ∃ name, x = Tree.word name := hnames _ (Catalog.mem_of_get? hget)
  clear hget
  induction xs with
  | nil => exact ⟨[], rfl⟩
  | cons x xs ih =>
    obtain ⟨⟨name, rfl⟩, hrest⟩ := List.forall_mem_cons.1 hwords
    obtain ⟨names, rfl⟩ := ih hrest
    exact ⟨name :: names, rfl⟩

theorem lists_of_mem {t s : String} {subtypes : List String} (htypes : types.get? t = some (subtypes.map .word))
    (hs : s ∈ subtypes.reverse) : types.Lists t s :=
  ⟨_, htypes, List.mem_map_of_mem (List.mem_reverse.1 hs)⟩

theorem instancesOfEach_words {names : List String} {exts : List (List Tree)}
    (h : List.Forall₂ (fun n ext => instances objects types (.word n) = .ok ext) names exts) :
    instancesOfEach objects types types.length (names.map .word) = .ok exts.flatten := by
  induction h with
  | nil => rw [List.map_nil, instancesOfEach, List.flatten_nil]
  | cons hfirst _ ih =>
    rw [instances] at hfirst
    rw [List.map_cons, instancesOfEach, hfirst, ih]
    rfl

/-- **The instances of a type are its extension.** -/
theorem Extension.instances_eq (hacyclic : types.Acyclic) {t : String} {os : List Tree}
    (h : Extension objects types t os) : instances objects types (.word t) = .ok os := by
  -- along the subtypes, because a type is opened into other types
  induction t using hacyclic.wellFounded.induction generalizing os with
  | _ t ih =>
    cases h with
    | declared h => exact instances_declared h
    | opened hnone htypes h =>
      rw [instances_opened hacyclic hnone htypes, ← List.map_reverse]
      refine instancesOfEach_words (List.Forall₂.imp ?_ ((List.forall₂_and_left _ _).2 ⟨fun s hs => hs, h⟩))
      rintro s ext ⟨hs, hext⟩
      exact ih s (lists_of_mem htypes hs) hext

/-- What a search from a type comes to: the extension of the type, or a type that is not known. -/
def Answers (objects types : Hierarchy) (t : String) (r : Except Fault (List Tree)) : Prop :=
  (∃ os, r = .ok os ∧ Extension objects types t os) ∨
    ∃ u, r = .error (.refused (.unknownType u)) ∧ Reaches objects types t u ∧ ¬ Known objects types u

theorem answers_ofEach : ∀ {names : List String},
    (∀ n ∈ names, Answers objects types n (instances objects types (.word n))) →
    (∃ exts, instancesOfEach objects types types.length (names.map .word) = .ok exts.flatten ∧
      List.Forall₂ (Extension objects types) names exts) ∨
    ∃ n ∈ names, ∃ u,
      instancesOfEach objects types types.length (names.map .word) = .error (.refused (.unknownType u)) ∧
      Reaches objects types n u ∧ ¬ Known objects types u
  | [], _ => .inl ⟨[], by rw [List.map_nil, instancesOfEach, List.flatten_nil], .nil⟩
  | n :: names, h => by
    obtain ⟨hn, hrest⟩ := List.forall_mem_cons.1 h
    rw [instances] at hn
    rw [List.map_cons, instancesOfEach]
    rcases hn with ⟨os, hos, hext⟩ | ⟨u, hu, hunknown⟩
    · rw [hos]
      rcases answers_ofEach hrest with ⟨exts, hexts, hall⟩ | ⟨m, hm, u, hu, hunknown⟩
      · exact .inl ⟨os :: exts, by rw [hexts]; rfl, .cons hext hall⟩
      · exact .inr ⟨m, List.mem_cons_of_mem n hm, u, by rw [hu]; rfl, hunknown⟩
    · exact .inr ⟨n, List.mem_cons_self, u, by rw [hu]; rfl, hunknown⟩

/-- **A search finds the extension of its type, or stops at a type that is not known.** -/
theorem answers_instances (hnames : types.HoldsNames) (hacyclic : types.Acyclic) (t : String) :
    Answers objects types t (instances objects types (.word t)) := by
  induction t using hacyclic.wellFounded.induction with
  | _ t ih =>
    cases hobjects : objects.get? t with
    | some os => exact .inl ⟨os, instances_declared hobjects, .declared hobjects⟩
    | none =>
      cases htypes : types.get? t with
      | none =>
        refine .inr ⟨t, instances_unknown hobjects htypes, .refl, ?_⟩
        simp [Known, Catalog.mem_keys_iff, Catalog.has, hobjects, htypes]
      | some xs =>
        obtain ⟨subtypes, rfl⟩ := hnames.get? htypes
        rw [instances_opened hacyclic hobjects htypes, ← List.map_reverse]
        rcases answers_ofEach fun s hs => ih s (lists_of_mem htypes hs) with
          ⟨exts, hexts, hall⟩ | ⟨s, hs, u, hu, hreaches, hunknown⟩
        · exact .inl ⟨_, hexts, .opened hobjects htypes hall⟩
        · exact .inr ⟨u, hu, .head ⟨hobjects, lists_of_mem htypes hs⟩ hreaches, hunknown⟩

/-! ## What an extension holds -/

theorem mem_keys_of_get? {α : Type} {c : Catalog α} {key : String} {a : α} (h : c.get? key = some a) :
    key ∈ c.keys := by
  rw [Catalog.mem_keys_iff, Catalog.has, h]
  rfl

/-- What a search opens next is one of the subtypes that the extension was put together from. -/
theorem mem_subtypes_of_opens {t s : String} {subtypes : List String}
    (htypes : types.get? t = some (subtypes.map .word)) (hopens : Opens objects types t s) : s ∈ subtypes.reverse := by
  obtain ⟨-, names, hnames, hs⟩ := hopens
  rw [htypes] at hnames
  cases hnames
  simpa using hs

theorem Extension.known {t s : String} {os : List Tree} (h : Extension objects types t os)
    (hreaches : Reaches objects types t s) : Known objects types s := by
  induction hreaches using ReflTransGen.head_induction_on generalizing os with
  | refl =>
    cases h with
    | declared h => exact .inl (mem_keys_of_get? h)
    | opened _ htypes _ => exact .inr (mem_keys_of_get? htypes)
  | head hopens _ ih =>
    cases h with
    | declared h =>
      rw [hopens.1] at h
      cases h
    | opened _ htypes h =>
      obtain ⟨ext, -, hext⟩ := exists_of_mem_right h.flip (mem_subtypes_of_opens htypes hopens)
      exact ih hext

/-- **An extension holds the objects declared under the types that a search comes to.** -/
theorem Extension.mem_iff (hacyclic : types.Acyclic) {t : String} {os : List Tree} (h : Extension objects types t os)
    {o : Tree} : o ∈ os ↔ ∃ s, Reaches objects types t s ∧ objects.Files s o := by
  induction t using hacyclic.wellFounded.induction generalizing os with
  | _ t ih =>
    cases h with
    | declared h =>
      constructor
      · exact fun ho => ⟨t, .refl, os, h, ho⟩
      · rintro ⟨s, hreaches, xs, hxs, ho⟩
        rcases hreaches.cases_head with rfl | ⟨m, hopens, -⟩
        · rw [h] at hxs
          cases hxs
          exact ho
        · rw [hopens.1] at h
          cases h
    | opened hnone htypes h =>
      rw [List.mem_flatten]
      constructor
      · rintro ⟨ext, hext, ho⟩
        obtain ⟨n, hn, hnext⟩ := exists_of_mem_right h hext
        obtain ⟨s, hreaches, hfiles⟩ := (ih n (lists_of_mem htypes hn) hnext).1 ho
        exact ⟨s, .head ⟨hnone, lists_of_mem htypes hn⟩ hreaches, hfiles⟩
      · rintro ⟨s, hreaches, hfiles⟩
        rcases hreaches.cases_head with rfl | ⟨m, hopens, hreaches⟩
        · obtain ⟨xs, hxs, -⟩ := hfiles
          rw [hnone] at hxs
          cases hxs
        · obtain ⟨ext, hext, hm⟩ := exists_of_mem_right h.flip (mem_subtypes_of_opens htypes hopens)
          exact ⟨ext, hext, (ih m hopens.2 hm).2 ⟨s, hreaches, hfiles⟩⟩

/-! ## Objects that a search misses -/

/-- An object that is declared under a type or under a type below it. -/
def DeclaredBelow (objects types : Hierarchy) (t : String) (o : Tree) : Prop :=
  ∃ s, ReflTransGen types.Lists t s ∧ objects.Files s o

theorem Hierarchy.Reaches.below {t s : String} (h : Reaches objects types t s) : ReflTransGen types.Lists t s :=
  ReflTransGen.mono (fun _ _ (hopens : Opens objects types _ _) => hopens.2) t s h

/-- A type below another is reached, or stands below a type that is reached and has objects of its own. -/
theorem reaches_or_hidden {t s : String} (h : ReflTransGen types.Lists t s) :
    Reaches objects types t s ∨ ∃ m, Reaches objects types t m ∧ m ∈ objects.keys ∧ TransGen types.Lists m s := by
  induction h with
  | refl => exact .inl .refl
  | @tail b c _ hstep ih =>
    rcases ih with hreaches | ⟨m, hreaches, hkey, hbelow⟩
    · by_cases hkey : b ∈ objects.keys
      · exact .inr ⟨b, hreaches, hkey, .single hstep⟩
      · exact .inl (.tail hreaches ⟨Catalog.get?_of_not_mem hkey, hstep⟩)
    · exact .inr ⟨m, hreaches, hkey, .tail hbelow hstep⟩

/-- All that is declared below a type with objects of its own is also declared where a search comes to. -/
def HidesNothing (objects types : Hierarchy) (t : String) : Prop :=
  ∀ m, Reaches objects types t m → m ∈ objects.keys → ∀ s o, TransGen types.Lists m s → objects.Files s o →
    ∃ r, Reaches objects types t r ∧ objects.Files r o

theorem Extension.exact_iff (hacyclic : types.Acyclic) {t : String} {os : List Tree}
    (h : Extension objects types t os) :
    (∀ o, o ∈ os ↔ DeclaredBelow objects types t o) ↔ HidesNothing objects types t := by
  constructor
  · intro hexact m hreaches _ s o hbelow hfiles
    exact (h.mem_iff hacyclic).1 ((hexact o).2 ⟨s, hreaches.below.trans hbelow.to_reflTransGen, hfiles⟩)
  · intro hhides o
    rw [h.mem_iff hacyclic]
    constructor
    · rintro ⟨s, hreaches, hfiles⟩
      exact ⟨s, hreaches.below, hfiles⟩
    · rintro ⟨s, hbelow, hfiles⟩
      rcases reaches_or_hidden hbelow with hreaches | ⟨m, hreaches, hkey, hbelow⟩
      · exact ⟨s, hreaches, hfiles⟩
      · exact hhides m hreaches hkey s o hbelow hfiles

/-! ## Typed variables -/

/-- A variable with its type, as parameters of actions and variables of predicates are read. -/
def typedVariable (p : String × String) : Tree := .list [.word p.1, .word p.2]

namespace Ranges

theorem read_typedVariable (p : String × String) (ps : List Tree) : read objects types (typedVariable p :: ps) = (do
    let found ← instances objects types (.word p.2)
    let rest ← read objects types ps
    return (.word p.1, found) :: rest) := rfl

/-- A range that a typed variable is given: the extension of its type. -/
def Gives (objects types : Hierarchy) (p : String × String) (r : Tree × List Tree) : Prop :=
  r.1 = .word p.1 ∧ Extension objects types p.2 r.2

/-- **Each variable ranges over the extension of its type**, or a type that is not known stops the reading. -/
theorem read_cases (hnames : types.HoldsNames) (hacyclic : types.Acyclic) : ∀ ps : List (String × String),
    (∃ ranges, read objects types (ps.map typedVariable) = .ok ranges ∧ List.Forall₂ (Gives objects types) ps ranges) ∨
    ∃ p ∈ ps, ∃ u, read objects types (ps.map typedVariable) = .error (.refused (.unknownType u)) ∧
      Reaches objects types p.2 u ∧ ¬ Known objects types u
  | [] => .inl ⟨[], rfl, .nil⟩
  | p :: ps => by
    rw [List.map_cons, read_typedVariable]
    rcases answers_instances hnames hacyclic p.2 with ⟨os, hos, hext⟩ | ⟨u, hu, hunknown⟩
    · rw [hos]
      rcases read_cases hnames hacyclic ps with ⟨ranges, hranges, hall⟩ | ⟨q, hq, u, hu, hunknown⟩
      · exact .inl ⟨(.word p.1, os) :: ranges, by rw [hranges]; rfl, .cons ⟨rfl, hext⟩ hall⟩
      · exact .inr ⟨q, List.mem_cons_of_mem p hq, u, by rw [hu]; rfl, hunknown⟩
    · exact .inr ⟨p, List.mem_cons_self, u, by rw [hu]; rfl, hunknown⟩

/-- **When variables range over all objects below their types.**  A variable ranges over the objects declared under the
types that a search comes to, and a type with objects of its own is not opened.  So the ranges are read and hold exactly
what is declared under each type or below it if and only if all types that are reached are known, and what is declared
below a type with objects of its own is declared where the search comes to as well. -/
theorem read_exact_iff (objects types : Hierarchy) (hnames : types.HoldsNames) (hacyclic : types.Acyclic)
    (ps : List (String × String)) :
    (∀ ranges, read objects types (ps.map typedVariable) = .ok ranges →
      List.Forall₂ (fun p r => r.1 = .word p.1 ∧
        ∀ o, o ∈ r.2 ↔ ∃ s, Reaches objects types p.2 s ∧ objects.Files s o) ps ranges) ∧
    ((∃ ranges, read objects types (ps.map typedVariable) = .ok ranges ∧
      List.Forall₂ (fun p r => r.1 = .word p.1 ∧ ∀ o, o ∈ r.2 ↔ DeclaredBelow objects types p.2 o) ps ranges) ↔
      ∀ p ∈ ps, (∀ s, Reaches objects types p.2 s → Known objects types s) ∧ HidesNothing objects types p.2) := by
  rcases @read_cases objects types hnames hacyclic ps with ⟨ranges, hread, hgives⟩ | ⟨p, hp, u, hread, hu, hunknown⟩
  · rw [hread]
    refine ⟨fun ranges' heq => ?_, ?_, fun h => ⟨ranges, rfl, ?_⟩⟩
    · cases heq
      exact hgives.imp fun p r hr => ⟨hr.1, fun o => hr.2.mem_iff hacyclic⟩
    · rintro ⟨_, heq, hexact⟩ p hp
      cases heq
      obtain ⟨r, -, hr, hexact⟩ := exists_of_mem_right
        (List.Forall₂.mp (fun p r hr hexact => (⟨hr, hexact⟩ : _ ∧ _)) hgives hexact).flip hp
      exact ⟨fun s => hr.2.known, (hr.2.exact_iff hacyclic).1 hexact.2⟩
    · refine List.Forall₂.imp ?_ ((List.forall₂_and_left _ _).2 ⟨h, hgives⟩)
      rintro p r ⟨⟨-, hhides⟩, hr⟩
      exact ⟨hr.1, (hr.2.exact_iff hacyclic).2 hhides⟩
  · rw [hread]
    refine ⟨?_, ?_, fun h => absurd ((h p hp).1 u hu) hunknown⟩
    · rintro _ ⟨⟩
    · rintro ⟨_, ⟨⟩, -⟩

/-- A vehicle of its own hides the car that is declared below it. -/
theorem read_exact_iff_hidden_car :
    HoldsNames [("vehicle", [.word "car"])] ∧ Acyclic [("vehicle", [.word "car"])] ∧
    DeclaredBelow [("vehicle", [.word "v"]), ("car", [.word "c"])] [("vehicle", [.word "car"])] "vehicle" (.word "c") ∧
    ¬ ∃ ranges, read [("vehicle", [.word "v"]), ("car", [.word "c"])] [("vehicle", [.word "car"])]
        ([("?x", "vehicle")].map typedVariable) = .ok ranges ∧
      List.Forall₂ (fun p r => r.1 = .word p.1 ∧ ∀ o, o ∈ r.2 ↔ DeclaredBelow
        [("vehicle", [.word "v"]), ("car", [.word "c"])] [("vehicle", [.word "car"])] p.2 o)
        [("?x", "vehicle")] ranges := by
  have hnames : HoldsNames [("vehicle", [.word "car"])] := by simp [HoldsNames]
  have hcar : Hierarchy.Lists [("vehicle", [.word "car"])] "vehicle" "car" := ⟨_, rfl, List.mem_singleton.2 rfl⟩
  have hacyclic : Acyclic [("vehicle", [.word "car"])] := Hierarchy.acyclic_of_not_mem_keys (by simp [Catalog.keys])
  refine ⟨hnames, hacyclic, ⟨"car", .single hcar, _, rfl, List.mem_singleton.2 rfl⟩, fun hexact => ?_⟩
  have hhides := (((read_exact_iff _ _ hnames hacyclic _).2.1 hexact) _ (List.mem_singleton.2 rfl)).2
  obtain ⟨r, hreaches, os, hos, hc⟩ :=
    hhides "vehicle" .refl (by decide) "car" (.word "c") (.single hcar) ⟨_, rfl, List.mem_singleton.2 rfl⟩
  rcases hreaches.cases_head with rfl | ⟨_, hopens, -⟩
  · cases hos
    exact absurd hc (by decide)
  · exact absurd hopens.1 (by decide)

end Ranges
end
end Epistemic
