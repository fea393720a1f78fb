import Epistemic.Fault
/-!
# Work that may stop

Steps that change a state and may stop with a fault. The state that was reached is kept when they stop, because what
was written up to there has been written.
-/
namespace Epistemic

theorem except_bind_eq_ok {α β : Type} {r : Except Fault α} {f : α → Except Fault β} {b : β} :
    (r >>= f) = .ok b ↔ ∃ a, r = .ok a ∧ f a = .ok b := by
  cases r <;> simp [bind, Except.bind]

/-- Steps on a state that may stop. -/
abbrev Work (σ α : Type) := ExceptT Fault (StateM σ) α

namespace Work

variable {σ α : Type}

/-- Performs the steps on a state: their result or the fault, and the state that was reached. -/
def perform (w : Work σ α) (s : σ) : Except Fault α × σ := StateT.run (ExceptT.run w) s

/-- Stops. -/
def stop (f : Fault) : Work σ α := throw f

/-- A result that needs no state. -/
def ofExcept : Except Fault α → Work σ α
  | .ok a => pure a
  | .error e => throw e

/-- Goes through a list in order. -/
def each {β : Type} (f : β → Work σ Unit) : List β → Work σ Unit
  | [] => pure ()
  | b :: bs => do
    f b
    each f bs

/-- Steps that do the same on every state are the same. -/
theorem ext {w w' : Work σ α} (h : ∀ s, w.perform s = w'.perform s) : w = w' := funext h

@[simp] theorem perform_pure (a : α) (s : σ) : (pure a : Work σ α).perform s = (.ok a, s) := rfl

@[simp] theorem perform_stop (f : Fault) (s : σ) : (stop f : Work σ α).perform s = (.error f, s) := rfl

@[simp] theorem perform_ofExcept (r : Except Fault α) (s : σ) : (ofExcept r : Work σ α).perform s = (r, s) := by
  cases r <;> rfl

@[simp] theorem perform_modify (f : σ → σ) (s : σ) : (modify f : Work σ Unit).perform s = (.ok (), f s) := rfl

@[simp] theorem perform_get (s : σ) : (get : Work σ σ).perform s = (.ok s, s) := rfl

/-- Steps that went well are followed by the next ones, on the state that they reached. -/
theorem perform_bind_ok {β : Type} {w : Work σ α} {next : α → Work σ β} {s t : σ} {a : α}
    (h : w.perform s = (.ok a, t)) : (w >>= next).perform s = (next a).perform t := by
  simp only [perform, ExceptT.run, StateT.run] at h
  simp only [perform, bind, ExceptT.bind, ExceptT.mk, ExceptT.run, StateT.run, StateT.bind, h, ExceptT.bindCont]

/-- Steps that stopped are followed by nothing. -/
theorem perform_bind_error {β : Type} {w : Work σ α} {next : α → Work σ β} {s t : σ} {e : Fault}
    (h : w.perform s = (.error e, t)) : (w >>= next).perform s = (.error e, t) := by
  simp only [perform, ExceptT.run, StateT.run] at h
  simp only [perform, bind, ExceptT.bind, ExceptT.mk, ExceptT.run, StateT.run, StateT.bind, h, ExceptT.bindCont]
  rfl

/-- Steps are followed by the next ones, unless they stop. -/
theorem perform_bind {β : Type} (w : Work σ α) (next : α → Work σ β) (s : σ) : (w >>= next).perform s =
    match w.perform s with
    | (.ok a, t) => (next a).perform t
    | (.error e, t) => (.error e, t) := by
  rcases h : w.perform s with ⟨_ | _, t⟩
  · exact perform_bind_error h
  · exact perform_bind_ok h

/-- **Steps in a row go well exactly if each goes well**, on the state that those before it reached. -/
theorem perform_bind_eq_ok {β : Type} {w : Work σ α} {next : α → Work σ β} {s u : σ} {b : β} :
    (w >>= next).perform s = (.ok b, u) ↔ ∃ a t, w.perform s = (.ok a, t) ∧ (next a).perform t = (.ok b, u) := by
  rw [perform_bind]
  rcases h : w.perform s with ⟨_ | a, t⟩
  · simp
  · constructor
    · exact fun hnext => ⟨a, t, rfl, hnext⟩
    · rintro ⟨a', t', hw, hnext⟩
      cases hw
      exact hnext

theorem perform_ofExcept_bind_eq_ok {β : Type} {r : Except Fault α} {next : α → Work σ β} {s u : σ} {b : β} :
    (ofExcept r >>= next).perform s = (.ok b, u) ↔ ∃ a, r = .ok a ∧ (next a).perform s = (.ok b, u) := by
  rw [perform_bind, perform_ofExcept]
  cases r <;> simp

theorem perform_each_singleton {β : Type} (f : β → Work σ Unit) (b : β) (s : σ) :
    (each f [b]).perform s = (f b).perform s := by
  rw [each]
  rcases h : (f b).perform s with ⟨_ | _, t⟩
  · exact perform_bind_error h
  · exact perform_bind_ok h

end Work
end Epistemic
