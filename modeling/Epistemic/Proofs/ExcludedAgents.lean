import Epistemic.Proofs.QuantifiedClauses
/-!
# Agents that a quantifier leaves out

A clause `(forall (diff (?v) (d1 ... dm)) rule)` is meant for all agents but those that it names.  It forgets whom it
leaves out if its rule asks for nothing, and else leaves out the first of them only; if it names none, it cannot be
printed for any agent.  So its statements are those of the other agents exactly if no agent is left out but the first
one that is named, under a condition (`comesTo_others_iff`).
-/
namespace Epistemic

open Source (IsPlainWord)
open Assignment (objectFor)
open MAp (terminated terminated_cons)

/-! ## Statements that are left out -/

namespace MAp

theorem length_terminated_filter (p : String → Bool) (f : String → String) (xs : List String) :
    (terminated ((xs.filter p).map f)).length + (xs.filter (!p ·)).length ≤ (terminated (xs.map f)).length := by
  induction xs with
  | nil => simp
  | cons x xs ih =>
    rw [List.map_cons, terminated_cons, String.length_append, String.length_append]
    have hend : (";\n" : String).length = 2 := rfl
    by_cases hx : p x = true
    · rw [List.filter_cons_of_pos hx, List.filter_cons_of_neg (by simp [hx]), List.map_cons, terminated_cons,
        String.length_append, String.length_append]
      omega
    · rw [List.filter_cons_of_neg hx, List.filter_cons_of_pos (by simp [hx]), List.length_cons]
      omega

/-- Statements are the same after some of them are left out only if none is. -/
theorem terminated_filter_eq_iff {p : String → Bool} {f : String → String} {xs : List String} :
    terminated ((xs.filter p).map f) = terminated (xs.map f) ↔ ∀ x ∈ xs, p x = true := by
  constructor
  · intro heq x hx
    have hlength := length_terminated_filter p f xs
    rw [heq] at hlength
    have hnone : xs.filter (!p ·) = [] := List.length_eq_zero_iff.1 (by omega)
    simpa using List.filter_eq_nil_iff.1 hnone x hx
  · intro h
    rw [List.filter_eq_self.2 h]

end MAp

/-! ## The agents of a clause -/

namespace QuantifiedClause

variable {c : QuantifiedClause} {ds : List String} {vars objects agents : List String}

theorem kept_of_demand_none (hnone : c.demand = none) (h : ObjectsFor vars objects)
    (hagents : ∀ x ∈ agents, IsAgentName vars x) : c.kept vars objects agents = agents ∧ c.outcome agents = .ok () := by
  have hout : c.leftOut = [""] := by rw [leftOut, hnone]
  have hempty : objectFor vars objects "" = "" :=
    Assignment.objectFor_of_not_mem fun hmem => (h.plain _ hmem).1 rfl
  constructor
  · simp only [kept, hout, hempty]
    refine List.filter_eq_self.2 fun x hx => ?_
    have hne : x ≠ "" := by
      rintro rfl
      exact (hagents "" hx).plain.1 rfl
    simpa using hne
  · simp [outcome, hout]

theorem leftOut_of_demand (hsome : c.demand.isSome = true) (hds : c.excluded = some ds) : c.leftOut = ds := by
  obtain ⟨d, hd⟩ := Option.isSome_iff_exists.1 hsome
  rw [leftOut, hd, hds]

/-- **The statements of a clause are those of the agents that it does not name exactly if nobody else is left out.** -/
theorem statements_eq_iff (hds : c.excluded = some ds) (h : ObjectsFor vars objects)
    (hagents : ∀ x ∈ agents, IsAgentName vars x) (f : String → String) :
    (c.outcome agents = .ok () ∧ terminated ((c.kept vars objects agents).map f) =
      terminated ((agents.filter (· ∉ ds.map (objectFor vars objects))).map f)) ↔
    (∀ x ∈ agents, x ∈ ds.map (objectFor vars objects) →
      c.demand.isSome = true ∧ (ds.map (objectFor vars objects)).head? = some x) ∧
    (c.demand.isSome = true → ds = [] → agents = []) := by
  rcases Bool.eq_false_or_eq_true c.demand.isSome with hsome | hnone
  · have hout := leftOut_of_demand hsome hds
    cases ds with
    | nil =>
      -- nobody is named, and the first agent is already too many
      by_cases hempty : agents = []
      · simp [outcome, kept, hout, hempty]
      · simp [outcome, hout, hempty, hsome]
    | cons d ds =>
      have hothers : agents.filter (· ∉ (d :: ds).map (objectFor vars objects)) =
          (agents.filter (· != objectFor vars objects d)).filter (· ∉ (d :: ds).map (objectFor vars objects)) := by
        rw [List.filter_filter]
        refine List.filter_congr fun x _ => ?_
        by_cases hx : x = objectFor vars objects d <;> simp [hx]
      have hok : c.outcome agents = .ok () := by simp [outcome, hout]
      have hkept : c.kept vars objects agents = agents.filter (· != objectFor vars objects d) := by
        simp only [kept, hout]
      rw [hkept, hothers, eq_comm (a := terminated _), MAp.terminated_filter_eq_iff]
      simp only [hok, true_and, hsome, List.map_cons, List.head?_cons, Option.some.injEq, reduceCtorEq, false_implies,
        implies_true, and_true]
      constructor
      · intro hall x hx hmem
        by_contra hne
        have hnot := hall x (List.mem_filter.2 ⟨hx, by simpa using fun heq => hne heq.symm⟩)
        exact absurd hmem (of_decide_eq_true hnot)
      · intro hfirst x hx
        obtain ⟨hx, hne⟩ := List.mem_filter.1 hx
        refine decide_eq_true fun hmem => ?_
        exact (bne_iff_ne.1 hne) (hfirst x hx hmem).symm
  · have hdemand : c.demand = none := Option.not_isSome_iff_eq_none.1 (by simp [hnone])
    obtain ⟨hkept, hok⟩ := kept_of_demand_none hdemand h hagents
    rw [hkept, hok, eq_comm (a := terminated _), MAp.terminated_filter_eq_iff]
    simp [hdemand]

end QuantifiedClause

/-- **A quantified clause is not printed for the other agents only.**  It comes to the statements of all agents but the
first one that it names, or of all agents if it asks for nothing, or stops at the first agent if it asks for something
and names none.  So they are the statements of the agents that it does not name, in order, exactly if of those that it
names only the first is an agent at all and it asks for something, and if there are no agents where it names none. -/
theorem comesTo_others_iff (a : Action) (known : List Entry) (c : QuantifiedClause) (ds : List String)
    (hds : c.excluded = some ds) (vars objects agents : List String) (h : ObjectsFor vars objects)
    (hc : c.Settles vars objects) (hagents : ∀ x ∈ agents, IsAgentName vars x) (name verb : String) :
    ComesTo a known c.tree vars objects agents name verb (c.outcome agents)
      (terminated ((c.kept vars objects agents).map (c.statement name verb (c.filledFor vars objects)))) ∧
    (ComesTo a known c.tree vars objects agents name verb (.ok ())
      (terminated ((agents.filter (· ∉ ds.map (objectFor vars objects))).map
        (c.statement name verb (c.filledFor vars objects)))) ↔
      (∀ x ∈ agents, x ∈ ds.map (objectFor vars objects) →
        c.demand.isSome = true ∧ (ds.map (objectFor vars objects)).head? = some x) ∧
      (c.demand.isSome = true → ds = [] → agents = [])) := by
  have hcomes := c.comesTo a known h hc hagents name verb
  refine ⟨hcomes, ?_⟩
  rw [← QuantifiedClause.statements_eq_iff hds h hagents (c.statement name verb (c.filledFor vars objects))]
  constructor
  · exact fun hothers => hcomes.unique hothers
  · rintro ⟨hok, htext⟩
    rwa [hok, htext] at hcomes

/-- All agents but one that a parameter stands for and `b`, if they have been seen. -/
def otherSeers : QuantifiedClause where
  var := "?v"
  excluded := some ["?x", "b"]
  demand := some (.one ⟨true, .atom ["seen", "?v"], "seen", [.word "?v"], rfl, by decide⟩)
  var_plain := by decide +kernel
  var_marked := by decide
  excluded_plain := by
    rintro ds hds
    cases hds
    decide +kernel

/-- The second agent that is named has a statement all the same. -/
theorem comesTo_others_iff_otherSeers :
    ComesTo { name := "go", observers := .levels [] [] } [] otherSeers.tree ["?x"] ["a"]
      ["a", "b", "c"] "go" " observes " (.ok ())
      "b observes go if seen_b;\nc observes go if seen_c;\n" ∧
    ¬ComesTo { name := "go", observers := .levels [] [] } [] otherSeers.tree ["?x"] ["a"]
      ["a", "b", "c"] "go" " observes " (.ok ())
      "c observes go if seen_c;\n" := by
  have hplain : IsPlainWord "seen" ∧ IsPlainWord "?v" ∧ IsPlainWord "?x" ∧ IsAgentWord "a" ∧
      ∀ x ∈ ["a", "b", "c"], IsPlainWord x := by decide +kernel
  have h := comesTo_others_iff { name := "go", observers := .levels [] [] } [] otherSeers ["?x", "b"] rfl ["?x"] ["a"]
    ["a", "b", "c"]
    ⟨by decide, rfl, by decide, List.forall_mem_singleton.2 hplain.2.2.1, List.forall_mem_singleton.2 hplain.2.2.2.1⟩
    (List.forall_mem_singleton.2 ⟨by decide, List.forall_mem_cons.2 ⟨hplain.1, List.forall_mem_singleton.2 hplain.2.1⟩⟩)
    (fun x hx => ⟨hplain.2.2.2.2 x hx, by revert x; decide, by revert x; decide⟩) "go" " observes "
  refine ⟨h.1, fun hothers => ?_⟩
  have hsecond := (h.2.1 hothers).1 "b" (by decide) (by decide)
  exact absurd hsecond.2 (by decide)

end Epistemic
