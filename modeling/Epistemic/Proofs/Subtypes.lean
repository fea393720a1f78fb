import Epistemic.Grounding.Instances
import Epistemic.Task.Domain
import Mathlib.Data.List.Basic
import Mathlib.Data.List.Induction
import Mathlib.Logic.Relation
/-!
# Subtypes and cycles

A name that is declared under a type has nothing declared under it so far, so types are listed before their subtypes
(`Ranked`).  A cycle of types is therefore a type that is declared under itself, and where no batch of names holds the
type behind it there is none: the search for the objects of a type, which opens one type after the other, ends from
every type.
-/
namespace Epistemic
namespace Hierarchy

open Relation (ReflTransGen TransGen)

/-- Whether a name is declared directly under a type. -/
def Lists (h : Hierarchy) (type name : String) : Prop :=
  ∃ names, h.get? type = some names ∧ .word name ∈ names

/-! ## What a declaration files -/

/-- The batches of names in a declaration, each with the type behind it, where `batch` holds the names that have been
passed since the last type. -/
def batches : (batch : List Tree) → List Tree → List (List Tree × Tree)
  | batch, [] => [(batch, .word "object")]
  | batch, t :: ts =>
    if t.isWord "-" then
      match ts with
      | [] => []
      | type :: ts => (batch, type) :: batches [] ts
    else batches (batch ++ [t]) ts

/-- A name that nothing is declared under. -/
def IsNew (h : Hierarchy) (t : Tree) : Prop := ∃ name, t = .word name ∧ name ∉ h.keys

/-- The hierarchy grows by batches of new names, each filed under its type. -/
inductive Grows (allowed : List (List Tree × Tree)) : Hierarchy → Hierarchy → Prop
  | refl (h : Hierarchy) : Grows allowed h h
  | file {h h' : Hierarchy} {batch : List Tree} {type : String} : (batch, .word type) ∈ allowed →
      (∀ t ∈ batch, h.IsNew t) → Grows allowed (h.extend type batch) h' → Grows allowed h h'

theorem Grows.mono {allowed more : List (List Tree × Tree)} {h h' : Hierarchy} (hg : Grows allowed h h')
    (hsub : ∀ b ∈ allowed, b ∈ more) : Grows more h h' := by
  induction hg with
  | refl h => exact .refl h
  | file hmem hnew _ ih => exact .file (hsub _ hmem) hnew ih

theorem mayDeclare_once {h : Hierarchy} {t : Tree} (hok : mayDeclare true h t = .ok ()) : h.IsNew t := by
  cases t with
  | list xs => simp [mayDeclare] at hok
  | word name =>
    refine ⟨name, rfl, fun hmem => ?_⟩
    rw [Catalog.mem_keys_iff] at hmem
    simp [mayDeclare, hmem] at hok

/-- **A declaration files its batches in turn**, as far as it is read, and every name of a batch is new when the batch
is filed. -/
theorem grows_declareFrom (place : String) (batch ts : List Tree) (h : Hierarchy) (hbatch : ∀ t ∈ batch, h.IsNew t) :
    Grows (batches batch ts) h (declareFrom place true batch ts h).hierarchy := by
  fun_induction declareFrom place true batch ts h with
  | case1 batch h =>
    rw [batches]
    split
    · exact .refl h
    · exact .file List.mem_cons_self hbatch (.refl _)
  | case2 => exact .refl _
  | case3 => exact .refl _
  | case4 => exact .refl _
  | case5 => exact .refl _
  | case6 batch t h hmay hhyphen hne type ts ih =>
    unfold batches
    rw [if_pos hhyphen]
    refine .file List.mem_cons_self hbatch ((ih fun t ht => by cases ht).mono fun b hb => List.mem_cons_of_mem _ hb)
  | case7 batch t ts h hmay hhyphen ih =>
    unfold batches
    rw [if_neg hhyphen]
    refine ih fun u hu => ?_
    rcases List.mem_append.1 hu with hu | hu
    · exact hbatch u hu
    · rw [List.mem_singleton.1 hu]
      exact mayDeclare_once hmay

/-! ## Types come before their subtypes -/

/-- Every type stands before those declared under it, itself apart. -/
def Ranked (h : Hierarchy) : Prop :=
  ∀ type name, h.Lists type name → name = type ∨ h.keys.idxOf type < h.keys.idxOf name

theorem mem_keys_of_lists {h : Hierarchy} {type name : String} (hl : h.Lists type name) : type ∈ h.keys := by
  obtain ⟨names, hget, -⟩ := hl
  rw [Catalog.mem_keys_iff, Catalog.has, hget]
  rfl

theorem lists_extend {h : Hierarchy} {type : String} {batch : List Tree} {a b : String}
    (hl : Lists (h.extend type batch) a b) : h.Lists a b ∨ a = type ∧ .word b ∈ batch := by
  obtain ⟨names, hget, hmem⟩ := hl
  rw [Catalog.extend, Catalog.get?_insert] at hget
  split at hget
  · rename_i heq
    cases hget
    rcases List.mem_append.1 hmem with hold | hnew
    · cases hknown : h.get? type with
      | none => simp [hknown] at hold
      | some known => exact .inl ⟨known, heq ▸ hknown, by simpa [hknown] using hold⟩
    · exact .inr ⟨heq.symm, hnew⟩
  · exact .inl ⟨names, hget, hmem⟩

/-- **Filing new names keeps types before their subtypes**: the type of the batch is known, or becomes the last one
with none of the other new names among the types. -/
theorem Ranked.extend {h : Hierarchy} (hr : h.Ranked) {type : String} {batch : List Tree}
    (hnew : ∀ t ∈ batch, h.IsNew t) : Ranked (h.extend type batch) := by
  intro a b hl
  rw [Catalog.extend, Catalog.keys_insert]
  rcases lists_extend hl with hold | ⟨rfl, hmem⟩
  · have ha := mem_keys_of_lists hold
    refine (hr a b hold).imp_right fun hlt => ?_
    split
    · exact hlt
    · rw [List.idxOf_append_of_mem ha]
      by_cases hb : b ∈ h.keys
      · rwa [List.idxOf_append_of_mem hb]
      · rw [List.idxOf_append_of_notMem hb]
        have := List.idxOf_lt_length_of_mem ha
        omega
  · obtain ⟨name, hname, hkeys⟩ := hnew _ hmem
    cases hname
    by_cases hab : b = a
    · exact .inl hab
    · refine .inr ?_
      split
      · rename_i ha
        rw [List.idxOf_eq_length hkeys]
        exact List.idxOf_lt_length_of_mem ha
      · rename_i ha
        rw [List.idxOf_append_of_notMem ha, List.idxOf_append_of_notMem hkeys]
        simp [Ne.symm hab]

theorem Grows.ranked {allowed : List (List Tree × Tree)} {h h' : Hierarchy} (hg : Grows allowed h h')
    (hr : h.Ranked) : h'.Ranked := by
  induction hg with
  | refl h => exact hr
  | file _ hnew _ ih => exact ih (hr.extend hnew)

/-- **Where no batch holds the type behind it, no type is declared under itself.** -/
theorem Grows.not_lists_self {allowed : List (List Tree × Tree)} {h h' : Hierarchy} (hg : Grows allowed h h')
    (hallowed : ∀ b ∈ allowed, b.2 ∉ b.1) (hself : ∀ t, ¬ h.Lists t t) : ∀ t, ¬ h'.Lists t t := by
  induction hg with
  | refl h => exact hself
  | file hmem _ _ ih =>
    refine ih fun t hl => ?_
    rcases lists_extend hl with hold | ⟨rfl, hbatch⟩
    · exact hself t hold
    · exact hallowed _ hmem hbatch

theorem Ranked.idxOf_le {h : Hierarchy} (hr : h.Ranked) {a b : String} (hab : ReflTransGen h.Lists a b) :
    h.keys.idxOf a ≤ h.keys.idxOf b := by
  induction hab with
  | refl => exact Nat.le_refl _
  | tail _ hstep ih =>
    rcases hr _ _ hstep with rfl | hlt
    · exact ih
    · omega

/-- **A cycle leads nowhere**: a step on it stays at its type. -/
theorem Ranked.eq_of_cycle {h : Hierarchy} (hr : h.Ranked) {a b : String} (hab : h.Lists a b)
    (hback : ReflTransGen h.Lists b a) : b = a := by
  rcases hr a b hab with heq | hlt
  · exact heq
  · have := hr.idxOf_le hback
    omega

theorem Ranked.acyclic {h : Hierarchy} (hr : h.Ranked) (hself : ∀ t, ¬ h.Lists t t) (t : String) :
    ¬ TransGen h.Lists t t := by
  intro hcycle
  obtain ⟨s, hstep, hback⟩ := TransGen.head'_iff.1 hcycle
  rw [hr.eq_of_cycle hstep hback] at hstep
  exact hself t hstep

end Hierarchy

/-! ## The search for the objects of a type -/

/-- A search for objects: the types that are still to be opened, the next one first, and the objects found so far. -/
structure Search where
  pending : List Tree
  found : List Tree := []

namespace Search

/-- One step of a search: the next type is answered by the objects declared under it or, where there are none, opened
into its subtypes, the last of which is the next. -/
def step (objects types : Hierarchy) : Search → Search ⊕ Except Fault (List Tree)
  | ⟨[], found⟩ => .inr (.ok found)
  | ⟨.list _ :: _, _⟩ => .inr (.error .listForName)
  | ⟨.word type :: rest, found⟩ =>
    match objects.get? type with
    | some os => .inl ⟨rest, found ++ os⟩
    | none =>
      match types.get? type with
      | some subtypes => .inl ⟨subtypes.reverse ++ rest, found⟩
      | none => .inr (.error (.refused (.unknownType type)))

/-- A search ends with a result after finitely many steps. -/
inductive Ends (objects types : Hierarchy) : Search → Except Fault (List Tree) → Prop
  | now {s : Search} {r : Except Fault (List Tree)} : s.step objects types = .inr r → Ends objects types s r
  | later {s s' : Search} {r : Except Fault (List Tree)} : s.step objects types = .inl s' → Ends objects types s' r →
      Ends objects types s r

/-- What the search does with types that are opened first: it goes on with the objects that were found for them, or
ends with what stopped it. -/
def Answered (objects types : Hierarchy) (opened : List Tree) (answer : Except Fault (List Tree)) : Prop :=
  ∀ rest found, match answer with
    | .ok os => ∀ r, Ends objects types ⟨rest, found ++ os⟩ r → Ends objects types ⟨opened ++ rest, found⟩ r
    | .error e => e ≠ .circularType → Ends objects types ⟨opened ++ rest, found⟩ (.error e)

section
variable {objects types : Hierarchy}

theorem Answered.cons {t : Tree} {ts : List Tree} {a b : Except Fault (List Tree)}
    (ht : Answered objects types [t] a) (hts : Answered objects types ts b) :
    Answered objects types (t :: ts) (do let x ← a; let y ← b; return x ++ y) := by
  intro rest found
  cases a with
  | error e => exact ht (ts ++ rest) found
  | ok x =>
    have ht := ht (ts ++ rest) found
    have hts := hts rest (found ++ x)
    cases b with
    | error e => exact fun hne => ht _ (hts hne)
    | ok y =>
      intro r hr
      refine ht r (hts r ?_)
      rw [List.append_assoc]
      exact hr

/-- A type that is opened is answered by its subtypes. -/
theorem Answered.opened {type : String} {subtypes : List Tree} {a : Except Fault (List Tree)}
    (hobjects : objects.get? type = none) (htypes : types.get? type = some subtypes)
    (h : Answered objects types subtypes.reverse a) : Answered objects types [.word type] a := by
  intro rest found
  have hstep : step objects types ⟨[.word type] ++ rest, found⟩ = .inl ⟨subtypes.reverse ++ rest, found⟩ := by
    simp only [step, List.singleton_append, hobjects, htypes]
  have h := h rest found
  cases a with
  | error e => exact fun hne => .later hstep (h hne)
  | ok os => exact fun r hr => .later hstep (h r hr)

theorem answered_ofEach {fuel : Nat} (h : ∀ t, Answered objects types [t] (instancesWithin objects types fuel t)) :
    ∀ ts, Answered objects types ts (instancesOfEach objects types fuel ts) := by
  intro ts
  induction ts with
  | nil =>
    rw [instancesOfEach]
    exact fun rest found r hr => by simpa using hr
  | cons t ts ih =>
    rw [instancesOfEach]
    exact (h t).cons ih

/-- **The search answers a type by its instances**, unless types are opened one inside the other without an end. -/
theorem answered_within : ∀ (fuel : Nat) (t : Tree), Answered objects types [t] (instancesWithin objects types fuel t)
  | fuel, .list xs => fun rest found => by
    unfold instancesWithin
    exact fun _ => .now rfl
  | fuel, .word type => by
    unfold instancesWithin
    cases hobjects : objects.get? type with
    | some os =>
      intro rest found r hr
      refine .later ?_ hr
      simp only [step, List.singleton_append, hobjects]
    | none =>
      simp only
      cases htypes : types.get? type with
      | none =>
        intro rest found _
        refine .now ?_
        simp only [step, List.singleton_append, hobjects, htypes]
      | some subtypes =>
        cases fuel with
        | zero => exact fun rest found hne => absurd rfl hne
        | succ fuel => exact .opened hobjects htypes (answered_ofEach (answered_within fuel) _)

theorem ends_instances {type : Tree} (h : instances objects types type ≠ .error .circularType) :
    Ends objects types ⟨[type], []⟩ (instances objects types type) := by
  have hanswered := (answered_within types.length type : Answered objects types [type] _) [] []
  rw [instances] at h ⊢
  cases hr : instancesWithin objects types types.length type with
  | error e =>
    rw [hr] at hanswered h
    exact hanswered fun he => h (by rw [he])
  | ok os =>
    rw [hr] at hanswered
    exact hanswered _ (.now rfl)

end
end Search

/-! ## No type is opened inside itself -/

section
variable {objects types : Hierarchy}

theorem instancesOfEach_ne_circular {fuel : Nat} : ∀ {ts : List Tree},
    (∀ t ∈ ts, instancesWithin objects types fuel t ≠ .error .circularType) →
    instancesOfEach objects types fuel ts ≠ .error .circularType
  | [], _ => by simp [instancesOfEach]
  | t :: ts, h => by
    have ht := h t List.mem_cons_self
    have hts := instancesOfEach_ne_circular fun u hu => h u (List.mem_cons_of_mem t hu)
    rw [instancesOfEach]
    cases hf : instancesWithin objects types fuel t with
    | error e =>
      rw [hf] at ht
      exact ht
    | ok found =>
      cases hr : instancesOfEach objects types fuel ts with
      | error e =>
        rw [hr] at hts
        exact hts
      | ok rest => exact fun hc => by cases hc

/-- **The types behind a type are enough to open it**: each type opened inside another stands behind it. -/
theorem instancesWithin_ne_circular (hr : types.Ranked) (hself : ∀ t, ¬ types.Lists t t) : ∀ (fuel : Nat) (t : Tree),
    (∀ type, t = .word type → type ∈ types.keys → types.keys.length ≤ fuel + types.keys.idxOf type) →
    instancesWithin objects types fuel t ≠ .error .circularType
  | fuel, .list xs, _ => by simp [instancesWithin]
  | fuel, .word type, henough => by
    unfold instancesWithin
    cases objects.get? type with
    | some os => simp
    | none =>
      simp only
      cases htypes : types.get? type with
      | none => simp
      | some subtypes =>
        have hkey : type ∈ types.keys := by
          rw [Catalog.mem_keys_iff, Catalog.has, htypes]
          rfl
        have henough := henough type rfl hkey
        have hlt := List.idxOf_lt_length_of_mem hkey
        cases fuel with
        | zero => omega
        | succ fuel =>
          refine instancesOfEach_ne_circular fun t ht => ?_
          refine instancesWithin_ne_circular hr hself fuel t fun name hname _ => ?_
          have hlists : types.Lists type name := ⟨subtypes, htypes, hname ▸ List.mem_reverse.1 ht⟩
          rcases hr type name hlists with heq | hlt
          · exact absurd (heq ▸ hlists) (hself type)
          · omega

theorem instances_ne_circular (hr : types.Ranked) (hself : ∀ t, ¬ types.Lists t t) (type : Tree) :
    instances objects types type ≠ .error .circularType := by
  refine instancesWithin_ne_circular hr hself _ _ fun name _ _ => ?_
  rw [Catalog.keys, List.length_map]
  omega

theorem Ranges.read_ne_circular (h : ∀ type, instances objects types type ≠ .error .circularType) :
    ∀ ps : List Tree, Ranges.read objects types ps ≠ .error .circularType := by
  intro ps
  induction ps with
  | nil => simp [Ranges.read]
  | cons p ps hps =>
    unfold Ranges.read
    split
    · rename_i v type hp
      cases hfound : instances objects types type with
      | error e =>
        intro hc
        injection hc with he
        exact h type (by rw [hfound, he])
      | ok found =>
        cases hrest : Ranges.read objects types ps with
        | error e =>
          rw [hrest] at hps
          exact hps
        | ok rest => exact fun hc => by cases hc
    · simp

end

/-! ## The types of a domain -/

namespace Domain

open Relation (ReflTransGen TransGen)
open Hierarchy (batches)

/-- The types that sections of a domain declare, one after the other. -/
def typesOf (sections : List (List Tree)) : Hierarchy :=
  (sections.foldl (fun d ts => (d.readTypes ts).domain) ({} : Domain)).types

theorem typesOf_append (sections : List (List Tree)) (ts : List Tree) :
    typesOf (sections ++ [ts]) = (Hierarchy.declare "types" true ts (typesOf sections)).hierarchy := by
  rw [typesOf, List.foldl_append]
  rfl

theorem grows_typesOf (sections : List (List Tree)) (ts : List Tree) :
    Hierarchy.Grows (batches [] ts) (typesOf sections) (typesOf (sections ++ [ts])) := by
  rw [typesOf_append]
  exact Hierarchy.grows_declareFrom "types" [] ts _ fun t ht => by cases ht

theorem ranked_typesOf (sections : List (List Tree)) : (typesOf sections).Ranked := by
  induction sections using List.reverseRecOn with
  | nil => exact fun type name hl => by obtain ⟨_, hget, _⟩ := hl; cases hget
  | append_singleton sections ts ih => exact (grows_typesOf sections ts).ranked ih

theorem not_lists_self_typesOf {sections : List (List Tree)}
    (h : ∀ ts ∈ sections, ∀ b ∈ batches [] ts, b.2 ∉ b.1) : ∀ t, ¬ (typesOf sections).Lists t t := by
  induction sections using List.reverseRecOn with
  | nil => exact fun t hl => by obtain ⟨_, hget, _⟩ := hl; cases hget
  | append_singleton sections ts ih =>
    refine (grows_typesOf sections ts).not_lists_self (h ts (by simp)) (ih fun us hus => h us (by simp [hus]))

/-- **A cycle of declared types is a type under itself.**  Where no batch of names holds the type behind it, there is
no cycle, and the search for the objects of a type ends from every type, whatever objects are declared, with what the
ranges of parameters and of predicate variables are read from. -/
theorem typesOf_cycles (sections : List (List Tree)) :
    (∀ a b, (typesOf sections).Lists a b → ReflTransGen (typesOf sections).Lists b a → b = a) ∧
    ((∀ ts ∈ sections, ∀ b ∈ batches [] ts, b.2 ∉ b.1) →
      (∀ t, ¬ TransGen (typesOf sections).Lists t t) ∧
      ∀ objects : Hierarchy,
        (∀ type, Search.Ends objects (typesOf sections) ⟨[type], []⟩ (instances objects (typesOf sections) type)) ∧
        ∀ parameters, Ranges.read objects (typesOf sections) parameters ≠ .error .circularType) := by
  have hranked := ranked_typesOf sections
  refine ⟨fun a b => hranked.eq_of_cycle, fun hbatches => ?_⟩
  have hself := not_lists_self_typesOf hbatches
  refine ⟨hranked.acyclic hself, fun objects => ?_⟩
  have hne : ∀ type, instances objects (typesOf sections) type ≠ .error .circularType :=
    instances_ne_circular hranked hself
  exact ⟨fun type => Search.ends_instances (hne type), Ranges.read_ne_circular hne⟩

/-- Types in two sections, the second of which declares subtypes of those of the first. -/
def vehicleTypes : List (List Tree) :=
  [[.word "vehicle", .word "agent", .word "-", .word "thing"],
    [.word "truck", .word "-", .word "vehicle", .word "robot", .word "-", .word "agent", .word "box"]]

theorem typesOf_cycles_vehicles :
    (∀ ts ∈ vehicleTypes, ∀ b ∈ batches [] ts, b.2 ∉ b.1) ∧
    (typesOf vehicleTypes).Lists "thing" "vehicle" ∧ ¬ TransGen (typesOf vehicleTypes).Lists "thing" "thing" ∧
    Search.Ends [("truck", [.word "t1"]), ("robot", [.word "r1", .word "r2"])] (typesOf vehicleTypes)
      ⟨[.word "thing"], []⟩ (.ok [.word "r1", .word "r2", .word "t1"]) := by
  have hbatches : ∀ ts ∈ vehicleTypes, ∀ b ∈ batches [] ts, b.2 ∉ b.1 := by decide
  have hfound : instances [("truck", [.word "t1"]), ("robot", [.word "r1", .word "r2"])] (typesOf vehicleTypes)
      (.word "thing") = .ok [.word "r1", .word "r2", .word "t1"] := by cbv
  obtain ⟨hacyclic, hends⟩ := (typesOf_cycles vehicleTypes).2 hbatches
  refine ⟨hbatches, ⟨_, rfl, List.mem_cons_self⟩, hacyclic "thing", ?_⟩
  rw [← hfound]
  exact (hends _).1 (.word "thing")

end Domain
end Epistemic
