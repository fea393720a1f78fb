import Epistemic.Draft
/-!
# Steps that write

Steps that only write have a text: they write it to the end whatever was written before, or stop with a fault
(`Writes`).  The text of two steps is that of the first and that of the second, and the text of a list of steps is
theirs in order.
-/
namespace Epistemic

open Draft (write)

/-- A text followed by another, if there are both. -/
def followed (a b : Except Fault String) : Except Fault String := a.bind fun x => b.map (x ++ ·)

theorem followed_eq_ok {a b : Except Fault String} {text : String} :
    followed a b = .ok text ↔ ∃ x y, a = .ok x ∧ b = .ok y ∧ text = x ++ y := by
  cases a <;> cases b <;> simp [followed, Except.bind, Except.map, eq_comm]

/-- Texts in order, if there are all of them. -/
def joined {α : Type} (f : α → Except Fault String) : List α → Except Fault String
  | [] => .ok ""
  | a :: as => followed (f a) (joined f as)

theorem joined_append_eq_ok {α : Type} {f : α → Except Fault String} : ∀ {xs ys : List α} {text : String},
    joined f (xs ++ ys) = .ok text ↔ ∃ a b, joined f xs = .ok a ∧ joined f ys = .ok b ∧ text = a ++ b
  | [], ys, text => by simp [joined, eq_comm]
  | x :: xs, ys, text => by
    rw [List.cons_append, joined, followed_eq_ok]
    constructor
    · rintro ⟨t, rest, ht, hrest, rfl⟩
      obtain ⟨a, b, ha, hb, rfl⟩ := joined_append_eq_ok.1 hrest
      exact ⟨t ++ a, b, followed_eq_ok.2 ⟨t, a, ht, ha, rfl⟩, hb, String.append_assoc.symm⟩
    · rintro ⟨a, b, ha, hb, rfl⟩
      obtain ⟨t, rest, ht, hrest, rfl⟩ := followed_eq_ok.1 ha
      exact ⟨t, rest ++ b, ht, joined_append_eq_ok.2 ⟨rest, b, hrest, hb, rfl⟩, String.append_assoc⟩

/-- The steps write a text to the end, or stop with a fault. -/
def Writes (w : Work Draft Unit) (text : Except Fault String) : Prop :=
  ∀ draft : Draft, match text with
    | .ok s => w.perform draft = (.ok (), { draft with text := draft.text ++ s })
    | .error e => ∃ done, w.perform draft = (.error e, done)

theorem writes_write (s : String) : Writes (write s) (.ok s) := fun _ => rfl

/-- **Steps write their texts one behind the other.** -/
theorem Writes.bind {v w : Work Draft Unit} {a b : Except Fault String} (hv : Writes v a) (hw : Writes w b) :
    Writes (v >>= fun _ => w) (followed a b) := by
  intro draft
  have hv := hv draft
  cases a with
  | error e =>
    obtain ⟨done, hv⟩ := hv
    exact ⟨done, Work.perform_bind_error hv⟩
  | ok x =>
    have hw := hw { draft with text := draft.text ++ x }
    cases b with
    | error e =>
      obtain ⟨done, hw⟩ := hw
      exact ⟨done, (Work.perform_bind_ok hv).trans hw⟩
    | ok y =>
      simp only [followed, Except.bind, Except.map]
      rw [Work.perform_bind_ok hv, hw, String.append_assoc]

theorem writes_ofExcept_bind {α : Type} {r : Except Fault α} {f : α → Work Draft Unit} {g : α → String}
    (h : ∀ a, Writes (f a) (.ok (g a))) : Writes (Work.ofExcept r >>= f) (r.map g) := by
  intro draft
  cases r with
  | error e => exact ⟨draft, Work.perform_bind_error (Work.perform_ofExcept _ _)⟩
  | ok a => exact (Work.perform_bind_ok (Work.perform_ofExcept _ _)).trans (h a draft)

/-- **Steps for each of a list write the texts of all.** -/
theorem Writes.each {α : Type} {f : α → Work Draft Unit} {g : α → Except Fault String} (h : ∀ a, Writes (f a) (g a)) :
    ∀ as : List α, Writes (Work.each f as) (joined g as)
  | [] => fun draft => by simp [joined, Work.each]
  | a :: as => (h a).bind (Writes.each h as)

theorem Writes.each_ok {α : Type} {f : α → Work Draft Unit} {g : α → String} {as : List α}
    (h : ∀ a ∈ as, Writes (f a) (.ok (g a))) : Writes (Work.each f as) (.ok (String.join (as.map g))) := by
  induction as with
  | nil =>
    intro draft
    simp [Work.each]
  | cons a as ih =>
    obtain ⟨ha, has⟩ := List.forall_mem_cons.1 h
    rw [List.map_cons, String.join_cons]
    exact ha.bind (ih has)

theorem Writes.perform_ok {w : Work Draft Unit} {text : Except Fault String} (h : Writes w text) {draft done : Draft} :
    w.perform draft = (.ok (), done) ↔ ∃ s, text = .ok s ∧ done = { draft with text := draft.text ++ s } := by
  have h := h draft
  cases text with
  | error e =>
    obtain ⟨stopped, h⟩ := h
    simp [h]
  | ok s =>
    simp only at h
    simp [h, eq_comm]

end Epistemic
