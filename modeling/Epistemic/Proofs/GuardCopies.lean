import Epistemic.MAp.Action
/-!
# Copies of guards

A quantified clause is printed from a copy, which stands behind the guards of the action while a statement is made of
it.  The marked variables are filled in there, and the blanks cleared; the guards of the action are not written to, so
that the statement is the one that a guard of its own would give (`MAp.quantifiedObserver_eq`).
-/
namespace Epistemic

/-- A guard for printing the clause of one agent. -/
def Guard.forAgent (agent : String) (g : Guard) : Except Fault Guard :=
  Guard.filled agent ⟨g.positive.map itemized, g.negative.map itemized⟩

/-- **The copy of a clause has its conditions**, each as a list. -/
theorem Entry.filled_copiedGuard (agent : String) (guards : List Guard) (e : Entry) :
    (e.clause guards).copiedGuard.filled agent = (guardAt guards e.guard).forAgent agent := rfl

/-! ## A guard behind the others -/

theorem guardAt_append_length (guards : List Guard) (g : Guard) : guardAt (guards ++ [g]) guards.length = g := by
  simp [guardAt]

theorem set_append_length (guards : List Guard) (g g' : Guard) :
    (guards ++ [g]).set guards.length g' = guards ++ [g'] := by
  simp

namespace MAp

open Sheet

section
variable {agent text report : String} {guards : List Guard} {g : Guard}

theorem perform_fillGuard_ok {g' : Guard} (h : g.filled agent = .ok g') :
    (fillGuard agent guards.length).perform ⟨text, report, guards ++ [g]⟩ =
      (.ok (), ⟨text, report, guards ++ [g']⟩) := by
  rw [fillGuard, perform_guard_bind, guardAt_append_length, h, Work.perform_bind_ok (Work.perform_ofExcept _ _),
    setGuard, Work.perform_modify, set_append_length]

theorem perform_fillGuard_error {f : Fault} (h : g.filled agent = .error f) :
    (fillGuard agent guards.length).perform ⟨text, report, guards ++ [g]⟩ =
      (.error f, ⟨text, report, guards ++ [g]⟩) := by
  rw [fillGuard, perform_guard_bind, guardAt_append_length, h]
  exact Work.perform_bind_error (Work.perform_ofExcept _ _)

end

theorem perform_printGuard_behind (print : Guard → PrintedGuard) (text report : String) (guards : List Guard)
    (g : Guard) : (printGuard print guards.length).perform ⟨text, report, guards ++ [g]⟩ =
      ((print g).outcome, ⟨text ++ (print g).text, report, guards ++ [(print g).left]⟩) := by
  rw [perform_printGuard, guardAt_append_length, set_append_length]

/-- **What is filled in and printed behind the guards of the action is printed as a guard of its own**, and the action
has the guards that it had. -/
theorem withGuard_fillGuard_eq (agent head : String) (g : Guard) :
    (withGuard g fun copy => do
      write head
      fillGuard agent copy
      let _ ← printGuard guard copy
      write ";\n") = (do
    write head
    let g ← Work.ofExcept (g.filled agent)
    let _ ← writePrinted (guard g)
    write ";\n") := by
  refine Work.ext fun ⟨text, report, guards⟩ => ?_
  cases hfill : g.filled agent with
  | error f =>
    apply Eq.trans
    · apply perform_withGuard
      rw [perform_write_bind, Work.perform_bind_error (perform_fillGuard_error hfill)]
    · rw [perform_write_bind, Work.perform_bind_error (Work.perform_ofExcept _ _)]
  | ok g' =>
    have hprint := perform_printGuard_behind guard (text ++ head) report guards g'
    have hown := perform_writePrinted (guard g') ⟨text ++ head, report, guards⟩
    cases hout : (guard g').outcome with
    | error f =>
      rw [hout] at hprint hown
      apply Eq.trans
      · apply perform_withGuard
        rw [perform_write_bind, Work.perform_bind_ok (perform_fillGuard_ok hfill), Work.perform_bind_error hprint]
      · rw [perform_write_bind, Work.perform_bind_ok (Work.perform_ofExcept _ _), Work.perform_bind_error hown]
    | ok b =>
      rw [hout] at hprint hown
      apply Eq.trans
      · apply perform_withGuard
        rw [perform_write_bind, Work.perform_bind_ok (perform_fillGuard_ok hfill), Work.perform_bind_ok hprint,
          perform_write]
      · rw [perform_write_bind, Work.perform_bind_ok (Work.perform_ofExcept _ _), Work.perform_bind_ok hown,
          perform_write]

/-- **The statement of one agent for a quantified clause**, without the copy. -/
theorem quantifiedObserver_eq (name verb : String) (e : Entry) (agent : Tree) :
    quantifiedObserver name verb e agent = (do
      if ← Work.ofExcept (leavesOut e agent) then
        return
      let agent ← nameOf agent
      write (agent ++ verb ++ name)
      let g ← Work.ofExcept ((← Sheet.guard e.guard).forAgent agent)
      let _ ← writePrinted (guard g)
      write ";\n") := by
  unfold quantifiedObserver
  simp only [withGuard_fillGuard_eq, Entry.filled_copiedGuard]
  rfl

end MAp
end Epistemic
