/-!
# Catalogs

Names with what is filed under them, in the order in which the names came up first.
-/
namespace Epistemic

/-- Entries by name, each name filed once. -/
abbrev Catalog (α : Type) := List (String × α)

namespace Catalog

variable {α : Type}

/-- What is filed under a name. -/
def get? : Catalog α → String → Option α
  | [], _ => none
  | (k, a) :: rest, key => if k == key then some a else get? rest key

/-- Whether something is filed under a name. -/
def has (c : Catalog α) (key : String) : Bool := (c.get? key).isSome

/-- The names, in order. -/
def keys (c : Catalog α) : List String := c.map Prod.fst

/-- Files an entry: in place of the one under that name, or at the end. -/
def insert : Catalog α → String → α → Catalog α
  | [], key, a => [(key, a)]
  | (k, b) :: rest, key, a => if k == key then (k, a) :: rest else (k, b) :: insert rest key a

/-- Adds items to the list under a name. -/
def extend (c : Catalog (List α)) (key : String) (items : List α) : Catalog (List α) :=
  c.insert key ((c.get? key).getD [] ++ items)

theorem get?_insert (c : Catalog α) (key : String) (a : α) (other : String) :
    (c.insert key a).get? other = if key = other then some a else c.get? other := by
  induction c with
  | nil => simp [insert, get?]
  | cons e rest ih =>
    obtain ⟨k, b⟩ := e
    by_cases hk : k = key
    · subst hk; by_cases ho : k = other <;> simp [insert, get?, ho]
    · by_cases ho : k = other
      · subst ho; simp [insert, get?, hk, Ne.symm hk]
      · simp [insert, get?, hk, ho, ih]

theorem mem_keys_iff (c : Catalog α) (key : String) : key ∈ c.keys ↔ c.has key = true := by
  induction c with
  | nil => simp [keys, has, get?]
  | cons e rest ih =>
    obtain ⟨k, b⟩ := e
    by_cases hk : k = key
    · simp [keys, has, get?, hk]
    · simpa [keys, has, get?, hk, Ne.symm hk] using ih

/-- A new name comes last, and a known one keeps its place. -/
theorem keys_insert (c : Catalog α) (key : String) (a : α) :
    (c.insert key a).keys = if key ∈ c.keys then c.keys else c.keys ++ [key] := by
  induction c with
  | nil => rfl
  | cons e rest ih =>
    obtain ⟨k, b⟩ := e
    by_cases hk : k = key
    · simp [insert, keys, hk]
    · by_cases hmem : key ∈ keys rest
      · simp only [keys] at ih hmem
        simp [insert, keys, hk, hmem, ih]
      · simp only [keys] at ih hmem
        simp [insert, keys, hk, Ne.symm hk, hmem, ih]

theorem nodup_keys_insert {c : Catalog α} (h : c.keys.Nodup) (key : String) (a : α) : (c.insert key a).keys.Nodup := by
  rw [keys_insert]
  by_cases hmem : key ∈ c.keys
  · rwa [if_pos hmem]
  · rw [if_neg hmem, List.nodup_append]
    refine ⟨h, by simp, fun k hk k' hk' heq => hmem ?_⟩
    rw [← List.mem_singleton.1 hk', ← heq]
    exact hk

theorem mem_insert {c : Catalog α} {key : String} {a : α} {e : String × α} (h : e ∈ c.insert key a) :
    e ∈ c ∨ e = (key, a) := by
  induction c with
  | nil => exact .inr (List.mem_singleton.1 h)
  | cons x rest ih =>
    obtain ⟨k, b⟩ := x
    by_cases hk : k = key
    · rw [insert, if_pos (beq_iff_eq.2 hk), hk] at h
      rcases List.mem_cons.1 h with he | he
      · exact .inr he
      · exact .inl (List.mem_cons_of_mem _ he)
    · rw [insert, if_neg (mt beq_iff_eq.1 hk)] at h
      rcases List.mem_cons.1 h with he | he
      · exact .inl (he ▸ List.mem_cons_self)
      · exact (ih he).imp_left (List.mem_cons_of_mem _)

theorem mem_of_get? {c : Catalog α} {key : String} {a : α} (h : c.get? key = some a) : (key, a) ∈ c := by
  induction c with
  | nil => cases h
  | cons x rest ih =>
    obtain ⟨k, b⟩ := x
    by_cases hk : k = key
    · rw [get?, if_pos (beq_iff_eq.2 hk)] at h
      cases h
      exact hk ▸ List.mem_cons_self
    · rw [get?, if_neg (mt beq_iff_eq.1 hk)] at h
      exact List.mem_cons_of_mem _ (ih h)

theorem get?_of_not_mem {c : Catalog α} {key : String} (h : key ∉ c.keys) : c.get? key = none := by
  rwa [mem_keys_iff, has, Bool.not_eq_true, Option.isSome_eq_false_iff, Option.isNone_iff_eq_none] at h

/-- What is filed under a new name stands at the end. -/
theorem insert_of_not_mem {c : Catalog α} {key : String} (h : key ∉ c.keys) (a : α) :
    c.insert key a = c ++ [(key, a)] := by
  induction c with
  | nil => rfl
  | cons x rest ih =>
    obtain ⟨k, b⟩ := x
    rw [keys, List.map_cons, List.mem_cons, not_or] at h
    rw [insert, if_neg (mt beq_iff_eq.1 (Ne.symm h.1)), ih h.2, List.cons_append]

theorem not_mem_keys_of_nodup {c rest : Catalog α} {key : String} {a : α}
    (h : (keys (c ++ (key, a) :: rest)).Nodup) : key ∉ c.keys := by
  simp only [keys, List.map_append, List.map_cons, List.nodup_append] at h
  exact fun hm => h.2.2 key hm key List.mem_cons_self rfl

end Catalog
end Epistemic
