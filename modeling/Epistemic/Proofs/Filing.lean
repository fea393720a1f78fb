import Epistemic.Proofs.Parsed
/-!
# What a task files

A hyphen stands between names and their type, so it is never filed as a name itself, and a type is only filed with the
names before it.  Types, predicates and variables are filed once each.  All of this holds of every task that was read
(`Session.Parsed.filed`), however its reading ended.
-/
namespace Epistemic

theorem Tree.isWord_iff {t : Tree} {w : String} : t.isWord w = true ↔ t = .word w := by
  rw [Tree.isWord, beq_iff_eq]

/-- Names of which none is a hyphen. -/
def Unhyphened (ts : List Tree) : Prop := Tree.word "-" ∉ ts

theorem Unhyphened.concat {ts : List Tree} {t : Tree} (h : Unhyphened ts) (ht : ¬ t.isWord "-" = true) :
    Unhyphened (ts ++ [t]) := by
  intro hm
  rcases List.mem_append.1 hm with hm | hm
  · exact h hm
  · exact ht (Tree.isWord_iff.2 (List.mem_singleton.1 hm).symm)

/-! ## Types with what is declared under them -/

namespace Hierarchy

/-- Each type stands once, with at least one name, and no name is a hyphen. -/
structure Filed (h : Hierarchy) : Prop where
  once : h.keys.Nodup
  inhabited : ∀ e ∈ h, e.2 ≠ []
  named : ∀ e ∈ h, Unhyphened e.2

theorem filed_nil : Filed [] := ⟨List.nodup_nil, by simp, by simp⟩

variable {h : Hierarchy} {place : String} {once : Bool} {batch ts : List Tree}

theorem Filed.extend (hf : h.Filed) (type : String) (hne : batch ≠ []) (hb : Unhyphened batch) :
    Filed (h.extend type batch) := by
  have hold : Unhyphened ((h.get? type).getD []) := by
    cases hget : h.get? type with
    | none => exact List.not_mem_nil
    | some os => exact hf.named _ (Catalog.mem_of_get? hget)
  refine ⟨Catalog.nodup_keys_insert hf.once _ _, fun e he => ?_, fun e he => ?_⟩
  · rcases Catalog.mem_insert he with he | rfl
    · exact hf.inhabited e he
    · exact List.append_ne_nil_of_right_ne_nil _ hne
  · rcases Catalog.mem_insert he with he | rfl
    · exact hf.named e he
    · exact fun hm => (List.mem_append.1 hm).elim hold hb

/-- What is left of a batch at the end goes under one type. -/
theorem Filed.extendRest (hf : h.Filed) (type : String) (hb : Unhyphened batch) :
    Filed (if batch.isEmpty then h else h.extend type batch) := by
  by_cases hne : batch = []
  · rwa [if_pos (List.isEmpty_iff.2 hne)]
  · rw [if_neg (mt List.isEmpty_iff.1 hne)]
    exact hf.extend type hne hb

/-- **A declaration files names under types.** -/
theorem Filed.declareFrom (hf : h.Filed) (hb : Unhyphened batch) :
    (declareFrom place once batch ts h).hierarchy.Filed := by
  fun_induction Hierarchy.declareFrom place once batch ts h with
  | case1 batch h => exact hf.extendRest "object" hb
  | case2 | case3 | case4 | case5 => exact hf
  | case6 batch h t _ _ hne type ts ih =>
    -- A type is reached behind a hyphen, which is refused when no name stands before it.
    refine ih (hf.extend type ?_ hb) List.not_mem_nil
    exact fun he => hne (List.isEmpty_iff.2 he)
  | case7 batch t ts h _ ht ih => exact ih hf (hb.concat ht)

/-- **A declaration of agents files names under one type.** -/
theorem Filed.declareAgentsFrom (hf : h.Filed) (hb : Unhyphened batch) :
    (declareAgentsFrom place once batch ts h).hierarchy.Filed := by
  fun_induction Hierarchy.declareAgentsFrom place once batch ts h with
  | case1 batch h => exact hf.extendRest "agent" hb
  | case2 | case3 => exact hf
  | case4 batch t ts h _ ht ih => exact ih hf (hb.concat ht)

end Hierarchy

/-! ## Predicates with their variables -/

namespace TypedVariables

/-- Pairs of which no variable is a hyphen. -/
def AllNamed (pairs : List (Tree × Tree)) : Prop := ∀ p ∈ pairs, p.1 ≠ .word "-"

theorem AllNamed.addBatch {named : Bool} {pairs pairs' : List (Tree × Tree)} {batch : List Tree} {type : Tree}
    (hp : AllNamed pairs) (hb : Unhyphened batch) (h : addBatch named pairs batch type = .ok pairs') :
    AllNamed pairs' := by
  unfold TypedVariables.addBatch at h
  split at h
  · cases h
  · cases h
    refine List.forall_mem_append.2 ⟨hp, fun p hm => ?_⟩
    obtain ⟨v, hv, rfl⟩ := List.mem_map.1 hm
    rintro rfl
    exact hb hv

theorem allNamed_readFrom {place : String} {named : Bool} {batch ts : List Tree} {pairs : List (Tree × Tree)}
    (hp : AllNamed pairs) (hb : Unhyphened batch) : AllNamed (readFrom place named batch pairs ts).pairs := by
  fun_induction readFrom place named batch pairs ts with
  | case1 batch pairs pairs' hadd => exact hp.addBatch hb hadd
  | case2 | case3 | case4 | case5 => exact hp
  | case6 batch pairs t _ _ type ts pairs' hadd ih => exact ih (hp.addBatch hb hadd) List.not_mem_nil
  | case7 batch pairs t ts ht ih => exact ih hp (hb.concat ht)

end TypedVariables

namespace Signatures

open TypedVariables (AllNamed)

/-- Each predicate stands once, with each of its variables once, and no variable is a hyphen. -/
structure Filed (s : Signatures) : Prop where
  once : s.keys.Nodup
  named : ∀ e ∈ s, e.2.keys.Nodup ∧ "-" ∉ e.2.keys

theorem filed_nil : Filed [] := ⟨List.nodup_nil, by simp⟩

theorem ofPairs_filed {pairs : List (Tree × Tree)} {c : Catalog Tree} (hp : AllNamed pairs)
    (hc : c.keys.Nodup ∧ "-" ∉ c.keys) : (ofPairs pairs c).keys.Nodup ∧ "-" ∉ (ofPairs pairs c).keys := by
  fun_induction ofPairs pairs c with
  | case1 c => exact hc
  | case2 v type rest c ih =>
    obtain ⟨hv, hrest⟩ := List.forall_mem_cons.1 hp
    refine ih hrest ⟨Catalog.nodup_keys_insert hc.1 _ _, ?_⟩
    rw [Catalog.keys_insert]
    split
    · exact hc.2
    · intro hm
      rcases List.mem_append.1 hm with hm | hm
      · exact hc.2 hm
      · exact hv (by rw [← List.mem_singleton.1 hm])
  | case3 ts type rest c ih => exact ih (List.forall_mem_cons.1 hp).2 hc

theorem Filed.declareOne {s : Signatures} (h : s.Filed) (t : Tree) : (declareOne s t).1.Filed := by
  unfold Signatures.declareOne
  split
  · exact h
  · exact h
  · exact h
  · rename_i name ts
    split
    · exact h
    · simp only
      split
      · exact h
      · have hnamed : AllNamed (TypedVariables.read "predicates" true ts).pairs :=
          TypedVariables.allNamed_readFrom (by simp [AllNamed]) List.not_mem_nil
        refine ⟨Catalog.nodup_keys_insert h.once _ _, fun e he => ?_⟩
        rcases Catalog.mem_insert he with he | rfl
        · exact h.named e he
        · exact ofPairs_filed hnamed ⟨List.nodup_nil, List.not_mem_nil⟩

/-- **Declarations file predicates with their variables.** -/
theorem Filed.declare {ts : List Tree} {s : Signatures} (h : s.Filed) : (declare ts s).signatures.Filed := by
  induction ts generalizing s with
  | nil => exact h
  | cons t ts ih =>
    have hone := h.declareOne t
    unfold Signatures.declare
    rcases hdone : Signatures.declareOne s t with ⟨s', left, _ | e⟩
    · rw [hdone] at hone
      exact ih hone
    · rw [hdone] at hone
      exact hone

end Signatures

/-! ## Actions with their parameters -/

namespace Action

variable {a b : Action}

/-- The parameters are variables, of which none is a hyphen, with their types. -/
def Filed (a : Action) : Prop :=
  ∃ pairs, TypedVariables.AllNamed pairs ∧ a.parameters = pairs.map fun (v, type) => .list [v, type]

theorem filed_of_nil (h : a.parameters = []) : a.Filed := ⟨[], by simp [TypedVariables.AllNamed], h⟩

theorem Filed.of_parameters (h : a.Filed) (heq : b.parameters = a.parameters) : b.Filed := by
  unfold Filed
  rw [heq]
  exact h

theorem filed_readParameters {t : Tree} (h : a.readParameters t = .ok b) : b.Filed := by
  unfold readParameters at h
  split at h
  · split at h
    · cases h
      exact filed_of_nil rfl
    · cases h
  · rename_i ts
    simp only at h
    split at h
    · cases h
    · cases h
      have hnone : TypedVariables.AllNamed [] := by simp [TypedVariables.AllNamed]
      exact ⟨_, TypedVariables.allNamed_readFrom hnone List.not_mem_nil, rfl⟩

theorem parameters_of_map {α : Type} {r : Except Fault α} {f : α → Action} (h : r.map f = .ok b)
    (hf : ∀ x, (f x).parameters = a.parameters) : b.parameters = a.parameters := by
  cases r with
  | error e => cases h
  | ok x =>
    cases h
    exact hf x

theorem addToGroup_parameters {group : String} {t : Tree} (h : a.addToGroup group t = .ok b) :
    b.parameters = a.parameters := by
  unfold addToGroup at h
  split at h
  · exact parameters_of_map h fun _ => rfl
  · cases h
    rfl

/-- **No other field changes the parameters.** -/
theorem setField_parameters {value : Tree} {field : ActionField} (hne : field ≠ .parameters)
    (h : a.setField value field = .ok b) : b.parameters = a.parameters := by
  cases field with
  | parameters => exact absurd rfl hne
  | derivation | explicitEffect => cases h; rfl
  | kind =>
    simp only [setField] at h
    exact parameters_of_map h fun _ => rfl
  | precondition =>
    simp only [setField, readPrecondition] at h
    split at h
    · cases h
    · cases h; rfl
  | effect =>
    simp only [setField, addEffect] at h
    split at h
    · cases h
    · cases h; rfl
  | observers =>
    simp only [setField, addFullObservers] at h
    split at h
    · exact parameters_of_map h fun _ => rfl
    · cases h; rfl
  | observersInPart =>
    simp only [setField, addObserversInPart] at h
    split at h
    · exact parameters_of_map h fun _ => rfl
    · cases h; rfl

theorem Filed.setField {value : Tree} {field : ActionField} (h : a.Filed) (hset : a.setField value field = .ok b) :
    b.Filed := by
  by_cases hfield : field = .parameters
  · subst hfield
    exact filed_readParameters hset
  · exact h.of_parameters (setField_parameters hfield hset)

theorem Filed.declareFields {dialect : Dialect} {groups ts : List Tree} {report : String} (h : a.Filed)
    (hread : (declareFields dialect groups ts report a).outcome = .ok b) : b.Filed := by
  fun_induction Action.declareFields dialect groups ts report a with
  | case1 => cases hread; exact h
  | case2 t ts report a _ ih => exact ih h hread
  | case7 t report a field _ value _ group _ _ value' ts a' hadd ih =>
    exact ih (h.of_parameters (addToGroup_parameters hadd)) hread
  | case10 t report a field _ value ts _ a' hset ih => exact ih (h.setField hset) hread
  | case3 | case4 | case5 | case6 | case8 | case9 => cases hread

theorem filed_declare {dialect : Dialect} {known : List String} {groups ts : List Tree}
    (hread : (declare dialect known groups ts).outcome = .ok a) : a.Filed := by
  unfold declare at hread
  split at hread
  · cases hread
  · cases hread
  · split at hread
    · cases hread
    · split at hread
      · cases hread
      · exact (filed_of_nil rfl).declareFields hread

end Action

/-! ## Domains, problems and sessions -/

/-- A domain that files its predicates, its objects and the parameters of its actions. -/
structure Domain.Filed (d : Domain) : Prop where
  predicates : d.predicates.Filed
  objects : d.objects.Filed
  actions : ∀ a ∈ d.actions, a.Filed

namespace Domain

variable {d : Domain} {dialect : Dialect}

theorem filed_empty : ({} : Domain).Filed := ⟨Signatures.filed_nil, Hierarchy.filed_nil, by simp⟩

theorem Filed.readBehind (h : d.Filed) (keyword : Tree) (ts : List Tree) :
    (d.readBehind dialect keyword ts).domain.Filed := by
  have hsame : ∀ d' : Domain, d'.predicates = d.predicates → d'.objects = d.objects → d'.actions = d.actions →
      d'.Filed := fun d' hp ho ha => ⟨hp ▸ h.predicates, ho ▸ h.objects, ha ▸ h.actions⟩
  unfold Domain.readBehind
  split
  · cases ts <;> exact hsame _ rfl rfl rfl
  split
  · unfold readRequirements
    split <;> exact hsame _ rfl rfl rfl
  split
  · exact ⟨h.predicates, h.objects.declareFrom List.not_mem_nil, h.actions⟩
  split
  · exact ⟨h.predicates.declare, h.objects, h.actions⟩
  split
  · exact hsame _ rfl rfl rfl
  split
  · unfold readAction
    simp only
    split
    · exact h
    · rename_i a hread
      refine ⟨h.predicates, h.objects, List.forall_mem_append.2 ⟨h.actions, ?_⟩⟩
      simpa using Action.filed_declare hread
  split <;> exact hsame _ rfl rfl rfl

theorem Filed.readSection (h : d.Filed) (t : Tree) : (d.readSection dialect t).domain.Filed := by
  unfold Domain.readSection
  split
  · exact h
  · exact h
  · exact h.readBehind _ _

theorem Filed.readSections {ts : List Tree} (h : d.Filed) : (d.readSections dialect ts).domain.Filed :=
  readSections_keeps (fun _ t _ hd => Filed.readSection hd t) h

end Domain

/-- A task whose domain, if it has one, files its declarations. -/
def Task.Filed (t : Task) : Prop := ∀ d, t.domain = some d → d.Filed

namespace Problem

variable {task : Task} {problem : Problem}

theorem filed_readObjects {declare : List Tree → Hierarchy → Hierarchy.Declared} {ts : List Tree}
    (hdeclare : ∀ h : Hierarchy, h.Filed → (declare ts h).hierarchy.Filed) (h : task.Filed) :
    (readObjects declare task problem ts).task.Filed := by
  unfold readObjects
  split
  · exact h
  · rename_i d hd
    intro d' hd'
    cases hd'
    exact ⟨(h d hd).predicates, hdeclare _ (h d hd).objects, (h d hd).actions⟩

theorem filed_readLiterals {place : String} {keep : Literals → Problem} {ts : List Tree} (h : task.Filed) :
    (readLiterals place keep task problem ts).task.Filed := by
  unfold readLiterals
  simp only
  split <;> exact h

theorem filed_readBehind (h : task.Filed) (keyword : Tree) (ts : List Tree) :
    (readBehind task problem keyword ts).task.Filed := by
  unfold readBehind
  split
  · cases ts <;> exact h
  split
  · exact h
  split
  · exact h
  split
  · exact filed_readObjects (fun _ hf => hf.declareFrom List.not_mem_nil) h
  split
  · exact filed_readObjects (fun _ hf => hf.declareAgentsFrom List.not_mem_nil) h
  split
  · cases ts <;> exact h
  split
  · exact filed_readLiterals h
  split
  · exact filed_readLiterals h
  · exact h

theorem filed_readSection (h : task.Filed) (t : Tree) : (readSection task problem t).task.Filed := by
  unfold readSection
  split
  · exact h
  · exact h
  · exact filed_readBehind h _ _

theorem filed_readSections {ts : List Tree} (h : task.Filed) : (readSections task problem ts).task.Filed :=
  readSections_keeps (P := fun task _ => task.Filed) (fun _ _ t _ ht => filed_readSection ht t) h

end Problem

namespace Session

/-- **A task that was read files its declarations.** -/
theorem Parsed.filed {s : Session} (h : Parsed s) : s.task.Filed := by
  induction h with
  | fresh dialect => exact fun d hd => by cases hd
  | @domain s _ file text ih =>
    rcases readDomain_task s file text with heq | ⟨parts, -, heq⟩
    · exact heq ▸ ih
    · rw [heq]
      intro d hd
      cases hd
      exact Domain.filed_empty.readSections
  | @problem s _ file text ih =>
    obtain ⟨begun, hbegun, heq | ⟨parts, -, heq⟩⟩ := readProblem_task s file text
    · rw [heq, hbegun]
      exact ih
    · have hfiled : begun.Filed := hbegun ▸ ih
      rw [heq]
      exact Problem.filed_readSections hfiled

end Session
end Epistemic
