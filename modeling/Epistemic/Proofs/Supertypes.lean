import Epistemic.Proofs.Subtypes
/-!
# Names that have a supertype

A declaration of types is refused at the first name that heads types of its own, not at the first that has a supertype
(`Domain.readTypes_refuses_iff`).  So a supertype cannot be given a supertype later, and a name that has only been
listed can be listed again, under another type.
-/
namespace Epistemic
namespace Hierarchy

/-! ## Declarations -/

/-- Names before a hyphen, and the type behind it. -/
structure Batch where
  names : List String
  type : String
  named : names ≠ []
  unhyphened : "-" ∉ type :: names

/-- Declarations in which every hyphen stands between names and a type.  The last names have no type behind them. -/
structure Listing where
  batches : List Batch
  last : List String
  unhyphened : "-" ∉ last

/-- A name where it is read, with the batches before its own. -/
structure Occurrence where
  before : List Batch
  name : String

def Batch.tokens (b : Batch) : List Tree := b.names.map .word ++ [.word "-", .word b.type]

def tokensOf (bs : List Batch) (last : List String) : List Tree := bs.flatMap Batch.tokens ++ last.map .word

/-- The names of batches and the last names in the order in which they are read. -/
def occurrencesFrom : (before : List Batch) → List Batch → (last : List String) → List Occurrence
  | before, [], last => last.map fun name => ⟨before, name⟩
  | before, b :: bs, last => b.names.map (fun name => ⟨before, name⟩) ++ occurrencesFrom (before ++ [b]) bs last

namespace Occurrence

/-- Whether the name heads types where it is read: in the hierarchy from before, or as the type of a batch. -/
def heads (h : Hierarchy) (o : Occurrence) : Bool := h.has o.name || o.before.any fun b => b.type == o.name

/-- Whether the name has a supertype where it is read: in the hierarchy from before, or that of a batch. -/
def placed (h : Hierarchy) (o : Occurrence) : Bool :=
  h.any (fun e => e.2.contains (.word o.name)) || o.before.any fun b => b.names.contains o.name

end Occurrence

namespace Listing

def tokens (L : Listing) : List Tree := tokensOf L.batches L.last

def occurrences (L : Listing) : List Occurrence := occurrencesFrom [] L.batches L.last

/-- The first name that is read in a certain way. -/
def first (L : Listing) (p : Occurrence → Bool) : Option String := (L.occurrences.find? p).map Occurrence.name

/-- Whether a name is listed under a type. -/
def Gives (L : Listing) (type name : String) : Prop :=
  (∃ b ∈ L.batches, b.type = type ∧ name ∈ b.names) ∨ type = "object" ∧ name ∈ L.last

end Listing

/-! ## What is filed -/

/-- A hierarchy with batches filed in turn. -/
def withBatches (h : Hierarchy) (bs : List Batch) : Hierarchy :=
  bs.foldl (fun h b => h.extend b.type (b.names.map .word)) h

/-- A hierarchy with the last names filed. -/
def withLast (h : Hierarchy) (last : List String) : Hierarchy :=
  if last.isEmpty then h else h.extend "object" (last.map .word)

theorem withBatches_concat (h : Hierarchy) (bs : List Batch) (b : Batch) :
    h.withBatches (bs ++ [b]) = (h.withBatches bs).extend b.type (b.names.map .word) := by
  rw [withBatches, List.foldl_append]
  rfl

theorem mem_keys_extend {h : Hierarchy} {type s : String} {batch : List Tree} :
    s ∈ Catalog.keys (h.extend type batch) ↔ s ∈ h.keys ∨ s = type := by
  rw [Catalog.extend, Catalog.keys_insert]
  split
  · rename_i hknown
    exact ⟨.inl, fun hs => hs.elim id fun heq => heq ▸ hknown⟩
  · rw [List.mem_append, List.mem_singleton]

theorem lists_extend_iff {h : Hierarchy} {type a b : String} {batch : List Tree} :
    Lists (h.extend type batch) a b ↔ h.Lists a b ∨ a = type ∧ .word b ∈ batch := by
  refine ⟨lists_extend, ?_⟩
  unfold Lists
  rw [Catalog.extend, Catalog.get?_insert]
  rintro (⟨names, hget, hmem⟩ | ⟨rfl, hmem⟩)
  · split
    · rename_i heq
      exact ⟨_, rfl, List.mem_append_left _ (by rw [heq, hget]; exact hmem)⟩
    · exact ⟨names, hget, hmem⟩
  · rw [if_pos rfl]
    exact ⟨_, rfl, List.mem_append_right _ hmem⟩

theorem mem_keys_withBatches {h : Hierarchy} {bs : List Batch} {s : String} :
    s ∈ (h.withBatches bs).keys ↔ s ∈ h.keys ∨ ∃ b ∈ bs, b.type = s := by
  induction bs using List.reverseRecOn with
  | nil => simp [withBatches]
  | append_singleton bs b ih =>
    rw [withBatches_concat, mem_keys_extend, ih, or_assoc]
    simp [or_and_right, exists_or, eq_comm]

theorem hyphen_not_mem_withBatches {h : Hierarchy} (hyphen : "-" ∉ h.keys) (bs : List Batch) :
    "-" ∉ (h.withBatches bs).keys := by
  rw [mem_keys_withBatches]
  rintro (hm | ⟨b, -, hb⟩)
  · exact hyphen hm
  · exact b.unhyphened (hb ▸ List.mem_cons_self)

theorem lists_withBatches {h : Hierarchy} {bs : List Batch} {type s : String} :
    (h.withBatches bs).Lists type s ↔ h.Lists type s ∨ ∃ b ∈ bs, b.type = type ∧ s ∈ b.names := by
  induction bs using List.reverseRecOn with
  | nil => simp [withBatches]
  | append_singleton bs b ih =>
    rw [withBatches_concat, lists_extend_iff, ih, or_assoc]
    simp [or_and_right, exists_or, eq_comm]

theorem mem_keys_withLast {h : Hierarchy} {last : List String} {s : String} (hs : s ∈ (h.withLast last).keys) :
    s ∈ h.keys ∨ s = "object" := by
  unfold withLast at hs
  split at hs
  · exact .inl hs
  · exact mem_keys_extend.1 hs

theorem lists_withLast {h : Hierarchy} {last : List String} {type s : String} :
    (h.withLast last).Lists type s ↔ h.Lists type s ∨ type = "object" ∧ s ∈ last := by
  unfold withLast
  split
  · rename_i hempty
    simp [List.isEmpty_iff.1 hempty]
  · simp [lists_extend_iff]

theorem heads_iff {h : Hierarchy} {o : Occurrence} : o.heads h = true ↔ o.name ∈ (h.withBatches o.before).keys := by
  rw [mem_keys_withBatches, Catalog.mem_keys_iff]
  simp [Occurrence.heads]

/-! ## Reading names -/

section
variable (place : String) {h : Hierarchy}

theorem declareFrom_known {name : String} (hknown : name ∈ h.keys) (batch ts : List Tree) :
    declareFrom place true batch (.word name :: ts) h =
      { hierarchy := h, left := .word name :: ts, fault := some (.refused (.secondSupertype name)) } := by
  have hmay : mayDeclare true h (.word name) = .error (.refused (.secondSupertype name)) := by
    rw [mayDeclare, (Catalog.mem_keys_iff h name).1 hknown]
    rfl
  rw [declareFrom.eq_def]
  simp only [hmay]

theorem mayDeclare_new {name : String} (hnew : name ∉ h.keys) : mayDeclare true h (.word name) = .ok () := by
  rw [Catalog.mem_keys_iff, Bool.not_eq_true] at hnew
  simp [mayDeclare, hnew]

theorem declareFrom_new {names : List String} (hyphen : "-" ∉ names) (hnew : ∀ name ∈ names, name ∉ h.keys)
    (batch ts : List Tree) :
    declareFrom place true batch (names.map .word ++ ts) h =
      declareFrom place true (batch ++ names.map .word) ts h := by
  induction names generalizing batch with
  | nil => simp
  | cons name names ih =>
    obtain ⟨hname, hnames⟩ := List.forall_mem_cons.1 hnew
    rw [List.mem_cons, not_or] at hyphen
    have hword : (Tree.word name).isWord "-" = false := by
      simpa [Tree.isWord] using Ne.symm hyphen.1
    rw [List.map_cons, List.cons_append, declareFrom.eq_def]
    simp only [mayDeclare_new hname, hword, Bool.false_eq_true, if_false]
    rw [ih hyphen.2 hnames, List.append_assoc, List.singleton_append]

/-- The names of a batch are all new, or the first that is known stops the reading. -/
theorem declareFrom_names_fault {names : List String} (hyphen : "-" ∉ names) {name : String}
    (hfound : names.find? (fun n => decide (n ∈ h.keys)) = some name) (batch ts : List Tree) :
    (declareFrom place true batch (names.map .word ++ ts) h).fault = some (.refused (.secondSupertype name)) := by
  obtain ⟨hknown, new, rest, rfl, hnew⟩ := List.find?_eq_some_iff_append.1 hfound
  have hnew : ∀ n ∈ new, n ∉ h.keys := fun n hn => by simpa using hnew n hn
  rw [List.map_append, List.append_assoc, declareFrom_new place (fun hm => hyphen (List.mem_append_left _ hm)) hnew,
    List.map_cons, List.cons_append, declareFrom_known place (of_decide_eq_true hknown)]

theorem declareFrom_batch {type : String} {batch : List Tree} (hyphen : "-" ∉ h.keys) (hne : batch ≠ [])
    (ts : List Tree) : declareFrom place true batch (.word "-" :: .word type :: ts) h =
      declareFrom place true [] ts (h.extend type batch) := by
  have hempty : batch.isEmpty = false := Bool.eq_false_iff.2 (mt List.isEmpty_iff.1 hne)
  rw [declareFrom]
  simp only [mayDeclare_new hyphen, Tree.isWord, beq_self_eq_true, if_true, hempty, Bool.false_eq_true, if_false]

/-! ## Reading declarations -/

/-- Names of one batch are found where they are known. -/
theorem find?_heads (before : List Batch) (names : List String) :
    (names.map fun name => (⟨before, name⟩ : Occurrence)).find? (Occurrence.heads h) =
      (names.find? fun name => decide (name ∈ (h.withBatches before).keys)).map (Occurrence.mk before) := by
  rw [List.find?_map]
  have hheads : (Occurrence.heads h ∘ fun name => (⟨before, name⟩ : Occurrence)) =
      fun name => decide (name ∈ (h.withBatches before).keys) := by
    funext name
    exact Bool.eq_iff_iff.2 (heads_iff.trans decide_eq_true_iff.symm)
  rw [hheads]

theorem not_mem_keys_of_find? {names : List String} (hnone : names.find? (fun n => decide (n ∈ h.keys)) = none) :
    ∀ name ∈ names, name ∉ h.keys := by
  intro name hname
  simpa using List.find?_eq_none.1 hnone name hname

/-- **Declarations are read up to the first name that heads types**; if there is none, all batches are filed in turn and
the last names behind them. -/
theorem declareFrom_tokens (hyphen : "-" ∉ h.keys) {last : List String} (hlast : "-" ∉ last) :
    ∀ bs before : List Batch, match (occurrencesFrom before bs last).find? (Occurrence.heads h) with
      | some o => (declareFrom place true [] (tokensOf bs last) (h.withBatches before)).fault =
          some (.refused (.secondSupertype o.name))
      | none => declareFrom place true [] (tokensOf bs last) (h.withBatches before) =
          { hierarchy := (h.withBatches (before ++ bs)).withLast last } := by
  intro bs
  induction bs with
  | nil =>
    intro before
    rw [occurrencesFrom, find?_heads, tokensOf, List.flatMap_nil, List.nil_append]
    cases hfound : last.find? fun name => decide (name ∈ (h.withBatches before).keys) with
    | some name => simpa using declareFrom_names_fault place hlast hfound [] []
    | none =>
      have hread := declareFrom_new place hlast (not_mem_keys_of_find? hfound) [] []
      rw [List.append_nil] at hread
      simp only [Option.map_none]
      rw [hread, List.append_nil, declareFrom, withLast]
      simp
  | cons b bs ih =>
    intro before
    have hnames : "-" ∉ b.names := fun hm => b.unhyphened (List.mem_cons_of_mem _ hm)
    have htokens : tokensOf (b :: bs) last = b.names.map .word ++ .word "-" :: .word b.type :: tokensOf bs last := by
      simp [tokensOf, Batch.tokens]
    rw [occurrencesFrom, List.find?_append, find?_heads, htokens]
    cases hfound : b.names.find? fun name => decide (name ∈ (h.withBatches before).keys) with
    | some name => simpa using declareFrom_names_fault place hnames hfound [] _
    | none =>
      -- the batch is filed, and what heads types behind it is what the rest is read with
      have ih := ih (before ++ [b])
      rw [withBatches_concat, List.append_assoc, List.singleton_append] at ih
      rw [declareFrom_new place hnames (not_mem_keys_of_find? hfound), List.nil_append,
        declareFrom_batch place (hyphen_not_mem_withBatches hyphen before) (by simpa using b.named)]
      exact ih

end
end Hierarchy

/-! ## The main result -/

namespace Domain

open Hierarchy (Listing Occurrence withBatches withLast)

theorem readTypes_tokens {d : Domain} (hyphen : "-" ∉ d.types.keys) (L : Listing) :
    (d.readTypes L.tokens).fault =
      (L.first (Occurrence.heads d.types)).map (fun s => .refused (.secondSupertype s)) ∧
    (L.first (Occurrence.heads d.types) = none →
      (d.readTypes L.tokens).domain.types = (d.types.withBatches L.batches).withLast L.last) := by
  have hread := Hierarchy.declareFrom_tokens "types" hyphen L.unhyphened L.batches []
  unfold Listing.first Listing.occurrences
  cases hfound : (Hierarchy.occurrencesFrom [] L.batches L.last).find? (Occurrence.heads d.types) with
  | some o =>
    rw [hfound] at hread
    exact ⟨hread, nofun⟩
  | none =>
    rw [hfound] at hread
    have hdone : (d.readTypes L.tokens).fault = none ∧
        (d.readTypes L.tokens).domain.types = (d.types.withBatches L.batches).withLast L.last := by
      rw [readTypes, Hierarchy.declare]
      exact ⟨congrArg Hierarchy.Declared.fault hread, congrArg Hierarchy.Declared.hierarchy hread⟩
    exact ⟨hdone.1, fun _ => hdone.2⟩

/-- **When declarations of types are refused.**  The reading stops at the first name that heads types where it is read.
So the name that is refused as one with a second supertype is the first name that has a supertype already exactly if
that name is also the first that heads types, or there is neither.  Declarations that are not refused list names under
their types and nothing else, also a name that they list under two types, and none of their names is one that heads
types before it. -/
theorem readTypes_refuses_iff (d : Domain) (hyphen : "-" ∉ d.types.keys) (L : Listing) :
    (∀ s, (Fault.refused (.secondSupertype s)).message = "Redefined supertype of " ++ s ∧
      ((d.readTypes L.tokens).fault = some (.refused (.secondSupertype s)) ↔
        L.first (Occurrence.heads d.types) = some s)) ∧
    ((∀ s, (d.readTypes L.tokens).fault = some (.refused (.secondSupertype s)) ↔
        L.first (Occurrence.placed d.types) = some s) ↔
      L.first (Occurrence.heads d.types) = L.first (Occurrence.placed d.types)) ∧
    ((d.readTypes L.tokens).fault = none ↔ ∀ o ∈ L.occurrences, o.heads d.types = false) ∧
    ((d.readTypes L.tokens).fault = none → "-" ∉ (d.readTypes L.tokens).domain.types.keys ∧
      ∀ type s, (d.readTypes L.tokens).domain.types.Lists type s ↔ d.types.Lists type s ∨ L.Gives type s) := by
  obtain ⟨hfault, htypes⟩ := readTypes_tokens hyphen L
  have hrefused : ∀ s, (d.readTypes L.tokens).fault = some (.refused (.secondSupertype s)) ↔
      L.first (Occurrence.heads d.types) = some s := by
    intro s
    rw [hfault]
    simp
  have haccepted : (d.readTypes L.tokens).fault = none ↔ L.first (Occurrence.heads d.types) = none := by
    rw [hfault]
    simp
  refine ⟨fun s => ⟨rfl, hrefused s⟩, ?_, ?_, fun hnone => ?_⟩
  · simp only [hrefused]
    exact Option.ext_iff.symm
  · rw [haccepted, Listing.first, Option.map_eq_none_iff, List.find?_eq_none]
    simp
  · rw [htypes (haccepted.1 hnone)]
    refine ⟨fun hm => ?_, fun type s => ?_⟩
    · rcases Hierarchy.mem_keys_withLast hm with hm | hm
      · exact Hierarchy.hyphen_not_mem_withBatches hyphen L.batches hm
      · exact absurd hm (by decide)
    · rw [Hierarchy.lists_withLast, Hierarchy.lists_withBatches, or_assoc]
      rfl

/-- Places and tools are things, and things are objects. -/
def thingTypes : Listing where
  batches := [⟨["loc", "tool"], "thing", by simp, by decide⟩, ⟨["thing"], "object", by simp, by decide⟩]
  last := []
  unhyphened := by simp

/-- Amphibians are boats, and they are cars. -/
def amphibianTypes : Listing where
  batches := [⟨["amphibian"], "boat", by simp, by decide⟩, ⟨["amphibian", "bus"], "car", by simp, by decide⟩]
  last := ["boat-yard"]
  unhyphened := by decide

/-- Things have no supertype yet when they are refused one, and amphibians are given two. -/
theorem readTypes_refuses_iff_amphibian :
    "-" ∉ ({} : Domain).types.keys ∧
    (({} : Domain).readTypes thingTypes.tokens).fault = some (.refused (.secondSupertype "thing")) ∧
    thingTypes.first (Occurrence.placed []) = none ∧
    (({} : Domain).readTypes amphibianTypes.tokens).fault = none ∧
    amphibianTypes.first (Occurrence.placed []) = some "amphibian" ∧
    (({} : Domain).readTypes amphibianTypes.tokens).domain.types.Lists "boat" "amphibian" ∧
    (({} : Domain).readTypes amphibianTypes.tokens).domain.types.Lists "car" "amphibian" := by
  have hyphen : "-" ∉ ({} : Domain).types.keys := by decide
  obtain ⟨hrefused, -⟩ := readTypes_refuses_iff {} hyphen thingTypes
  obtain ⟨-, -, haccepted, hlists⟩ := readTypes_refuses_iff {} hyphen amphibianTypes
  have hnone := haccepted.2 (by decide)
  refine ⟨hyphen, (hrefused "thing").2.2 (by decide), by decide, hnone, by decide, ?_, ?_⟩
  · exact ((hlists hnone).2 "boat" "amphibian").2 (.inr (.inl ⟨_, List.mem_cons_self, rfl, by decide⟩))
  · exact ((hlists hnone).2 "car" "amphibian").2
      (.inr (.inl ⟨_, List.mem_cons_of_mem _ List.mem_cons_self, rfl, by decide⟩))

end Domain
end Epistemic
