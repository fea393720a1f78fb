import Epistemic.Grounding.Substitution
import Mathlib.Data.List.Basic
import Mathlib.Logic.Relation
/-!
# Exchanging variables

Variables are filled in one after the other, each by exchanging it at its first place until it is gone.  Each exchange
for another word leaves one place less, and one for the variable itself leaves all there are
(`Assignment.exchangesEnd_iff`).  What the exchanges end with is what filling in gives (`Assignment.exchangesEach_iff`);
where they have no end, filling in is refused (`Assignment.fillItems_refused_iff`).
-/
namespace Epistemic
namespace Assignment

/-- Exchanging a word for another at its first place cannot go on for ever. -/
def ExchangesEnd (v o : Tree) (items : List Tree) : Prop :=
  Acc (fun after before => exchange v o before = .ok after) items

/-- Variables are exchanged for objects one after the other, each at its first place until it is gone. -/
inductive ExchangesEach : (vars objects items result : List Tree) → Prop
  | nil {items : List Tree} : ExchangesEach [] [] items items
  | cons {v o : Tree} {vs os items mid result : List Tree}
      (hrun : Relation.ReflTransGen (fun before after => exchange v o before = .ok after) items mid) (hgone : v ∉ mid)
      (hrest : ExchangesEach vs os mid result) : ExchangesEach (v :: vs) (o :: os) items result

theorem exchange_of_mem {v : Tree} {items : List Tree} (h : v ∈ items) (o : Tree) :
    exchange v o items = .ok (items.set (items.idxOf v) o) := if_pos (List.contains_iff_mem.2 h)

theorem exchange_first {v o : Tree} {items items' : List Tree} (h : exchange v o items = .ok items') :
    ∃ before after, items = before ++ v :: after ∧ items' = before ++ o :: after := by
  unfold exchange at h
  split at h
  · rename_i hmem
    obtain ⟨before, after, rfl, hbefore⟩ := List.eq_append_cons_of_mem (List.contains_iff_mem.1 hmem)
    have hidx : (before ++ v :: after).idxOf v = before.length := by
      rw [List.idxOf_append, if_neg hbefore]
      simp
    rw [hidx] at h
    cases h
    exact ⟨before, after, rfl, by simp⟩
  · cases h

/-- A word that is exchanged for itself stays where it is. -/
theorem exchange_self {v : Tree} {items items' : List Tree} (h : exchange v v items = .ok items') : items' = items := by
  obtain ⟨before, after, rfl, rfl⟩ := exchange_first h
  rfl

/-- **Exchanging a variable ends unless it is there and stands for itself**: an exchange for another word leaves one
place less. -/
theorem exchangesEnd_iff {v o : Tree} {items : List Tree} : ExchangesEnd v o items ↔ (v ∈ items → o ≠ v) := by
  constructor
  · rintro hend hv rfl
    induction hend with
    | intro items _ ih =>
      have hstep := exchange_of_mem hv o
      have hsame := exchange_self hstep
      rw [hsame] at hstep
      exact ih items hstep hv
  · intro h
    by_cases hv : v ∈ items
    · have hless : ∀ {after before : List Tree}, exchange v o before = .ok after → after.count v < before.count v := by
        intro after before hstep
        obtain ⟨xs, ys, rfl, rfl⟩ := exchange_first hstep
        simp [List.count_append, h hv]
      have hcount := InvImage.wf (fun ts : List Tree => ts.count v) Nat.lt_wfRel.wf
      exact (Subrelation.wf hless hcount).apply items
    · refine .intro items fun after hstep => ?_
      rw [exchange, if_neg (mt List.contains_iff_mem.1 hv)] at hstep
      cases hstep

theorem map_exchanged_of_not_mem {v : Tree} {items : List Tree} (h : v ∉ items) (o : Tree) :
    (items.map fun t => if t == v then o else t) = items := by
  have hid : ∀ t ∈ items, (if t == v then o else t) = t := by
    intro t ht
    have htv : t ≠ v := fun heq => h (heq ▸ ht)
    rw [beq_false_of_ne htv, if_neg Bool.false_ne_true]
  rw [List.map_congr_left hid, List.map_id']

theorem eq_map_of_exchanges {v o : Tree} {items last : List Tree}
    (hrun : Relation.ReflTransGen (fun before after => exchange v o before = .ok after) items last) (hgone : v ∉ last) :
    last = items.map fun t => if t == v then o else t := by
  induction hrun using Relation.ReflTransGen.head_induction_on with
  | refl => exact (map_exchanged_of_not_mem hgone o).symm
  | head hstep _ ih =>
    obtain ⟨xs, ys, rfl, rfl⟩ := exchange_first hstep
    rw [ih]
    simp

/-- **The exchanges of a variable lead to where it is gone exactly if they end.** -/
theorem exists_exchanges_iff {v o : Tree} {items : List Tree} :
    (∃ last, Relation.ReflTransGen (fun before after => exchange v o before = .ok after) items last ∧ v ∉ last) ↔
      ExchangesEnd v o items := by
  constructor
  · rintro ⟨last, hrun, hgone⟩
    refine exchangesEnd_iff.2 fun hv => ?_
    rintro rfl
    -- nothing has been exchanged
    have hsame : last = items := by
      induction hrun with
      | refl => rfl
      | tail _ hstep ih =>
        have heq := exchange_self hstep
        exact heq.trans (ih (heq ▸ hgone))
    exact hgone (hsame ▸ hv)
  · intro h
    induction h with
    | intro items _ ih =>
      by_cases hv : v ∈ items
      · have hstep := exchange_of_mem hv o
        obtain ⟨last, hrun, hgone⟩ := ih _ hstep
        exact ⟨last, .head hstep hrun, hgone⟩
      · exact ⟨items, .refl, hv⟩

/-- Filling in begins with the first variable, whose exchanges have to end. -/
theorem fillItems_cons (v o : Tree) (vs os items : List Tree) : fillItems (v :: vs) (o :: os) items =
    if v ∈ items ∧ o = v then .error (.refused (.standsForItself v.shown))
    else fillItems vs os (items.map fun t => if t == v then o else t) := by
  rw [fillItems]
  by_cases hv : v ∈ items
  · simp [hv]
  · rw [map_exchanged_of_not_mem hv]
    simp [hv]

/-- **Exchanging the variables one after the other is filling them in.** -/
theorem exchangesEach_iff {vars objects : List Tree} (hlength : objects.length = vars.length)
    {items result : List Tree} :
    ExchangesEach vars objects items result ↔ fillItems vars objects items = .ok result := by
  induction vars generalizing objects items with
  | nil =>
    cases List.length_eq_zero_iff.1 hlength
    refine ⟨fun h => ?_, fun h => ?_⟩
    · cases h
      rfl
    · cases h
      exact .nil
  | cons v vs ih =>
    obtain ⟨o, os, rfl⟩ := List.exists_cons_of_length_eq_add_one hlength
    have ih := @ih os (Nat.succ.inj hlength)
    rw [fillItems_cons]
    constructor
    · rintro (_ | ⟨hrun, hgone, hrest⟩)
      have hend := exchangesEnd_iff.1 (exists_exchanges_iff.1 ⟨_, hrun, hgone⟩)
      rw [if_neg fun h => hend h.1 h.2, ← eq_map_of_exchanges hrun hgone]
      exact ih.1 hrest
    · intro h
      split at h
      · cases h
      · rename_i hself
        obtain ⟨mid, hrun, hgone⟩ := exists_exchanges_iff.2 (exchangesEnd_iff.2 fun hv heq => hself ⟨hv, heq⟩)
        rw [← eq_map_of_exchanges hrun hgone] at h
        exact .cons hrun hgone (ih.2 h)

/-- **Filling in is refused exactly if exchanging the variables has no end.** -/
theorem fillItems_refused_iff {vars objects : List Tree} (hlength : objects.length = vars.length) (items : List Tree) :
    (∃ v, fillItems vars objects items = .error (.refused (.standsForItself v))) ↔
      ¬ ∃ result, ExchangesEach vars objects items result := by
  have hcases : (∃ v, fillItems vars objects items = .error (.refused (.standsForItself v))) ∨
      ∃ result, fillItems vars objects items = .ok result := by
    induction vars generalizing objects items with
    | nil => exact .inr ⟨items, rfl⟩
    | cons v vs ih =>
      obtain ⟨o, os, rfl⟩ := List.exists_cons_of_length_eq_add_one hlength
      rw [fillItems_cons]
      split
      · exact .inl ⟨_, rfl⟩
      · exact ih (Nat.succ.inj hlength) _
  simp only [exchangesEach_iff hlength]
  rcases hcases with ⟨v, hv⟩ | ⟨result, hresult⟩
  · simp [hv]
  · simp [hresult]

end Assignment
end Epistemic
