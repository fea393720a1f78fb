import Epistemic.Proofs.EffectReading
/-!
# What guards mean

A guard holds in a state if the formulas that it asks for do.  One guard follows from another exactly if it asks for
nothing else, or the other asks for a formula and for its negation (`Guard.follows_iff`).

The guard of a literal is that of the innermost `when` around it.  So it means all conditions around the literal exactly
if the innermost one repeats the others (`Effect.readClause_means_all_iff`).  A conjunction inside a condition counts as
a negation of its own literals, and what is deeper in it is lost (`Condition.readClause_means_stated_iff`).
-/
namespace Epistemic

/-- A condition that says something: it is neither empty nor a blank. -/
def IsStated (c : Tree) : Prop := c ≠ .list [] ∧ c ≠ .list [.word ""]

namespace Guard

/-- A guard asks for a formula, to hold or not to hold. -/
def Asks (g : Guard) (affirmed : Bool) (c : Tree) : Prop :=
  c ∈ (if affirmed then g.positive else g.negative) ∧ IsStated c

/-- All that a guard asks for is so, where `v` says which formulas hold. -/
def Holds (v : Tree → Prop) (g : Guard) : Prop := ∀ affirmed c, g.Asks affirmed c → (v c ↔ affirmed = true)

def Clashes (g : Guard) : Prop := ∃ c, g.Asks true c ∧ g.Asks false c

def Covers (g g' : Guard) : Prop := ∀ affirmed c, g'.Asks affirmed c → g.Asks affirmed c

theorem Clashes.not_holds {g : Guard} (h : g.Clashes) (v : Tree → Prop) : ¬ g.Holds v := by
  intro hv
  obtain ⟨c, hpos, hneg⟩ := h
  have hc : v c := (hv true c hpos).2 rfl
  exact absurd ((hv false c hneg).1 hc) (by decide)

theorem Clashes.of_covers {g g' : Guard} (h : g'.Clashes) (hcovers : g.Covers g') : g.Clashes := by
  obtain ⟨c, hpos, hneg⟩ := h
  exact ⟨c, hcovers true c hpos, hcovers false c hneg⟩

/-- **One guard follows from another** exactly if it asks for nothing else, or the other can never hold. -/
theorem follows_iff {g g' : Guard} : (∀ v, g.Holds v → g'.Holds v) ↔ g.Clashes ∨ g.Covers g' := by
  constructor
  · intro h
    by_cases hclash : g.Clashes
    · exact .inl hclash
    refine .inr fun affirmed c hc => ?_
    cases affirmed with
    | true =>
      -- the state in which only that holds which the guard asks for
      have hleast : g.Holds fun c => g.Asks true c := by
        intro affirmed c hc
        cases affirmed with
        | true => exact iff_of_true hc rfl
        | false => exact iff_of_false (fun hpos => hclash ⟨c, hpos, hc⟩) (by decide)
      exact (h _ hleast true c hc).2 rfl
    | false =>
      -- the state in which all holds but what the guard forbids
      have hmost : g.Holds fun c => ¬ g.Asks false c := by
        intro affirmed c hc
        cases affirmed with
        | true => exact iff_of_true (fun hneg => hclash ⟨c, hc, hneg⟩) rfl
        | false => exact iff_of_false (not_not_intro hc) (by decide)
      by_contra hnot
      exact absurd ((h _ hmost false c hc).1 hnot) (by decide)
  · rintro (hclash | hcovers) v hv
    · exact absurd hv (hclash.not_holds v)
    · exact fun affirmed c hc => hv affirmed c (hcovers affirmed c hc)

theorem not_asks_blank (affirmed : Bool) (c : Tree) : ¬ Guard.blank.Asks affirmed c := by
  rintro ⟨hc, hstated⟩
  cases affirmed <;> exact hstated.2 (List.mem_singleton.1 hc)

theorem holds_blank (v : Tree → Prop) : Guard.blank.Holds v :=
  fun affirmed c hc => absurd hc (not_asks_blank affirmed c)

end Guard

/-! ## Conditions around a literal -/

namespace Occurrence

/-- **The innermost of the conditions around a literal means all of them** exactly if it asks for all that they ask for,
or can never hold. -/
theorem innermost_means_all_iff (around : List Condition) :
    (∀ v, (innermost Condition.guard around).Holds v ↔ ∀ k ∈ around, k.guard.Holds v) ↔
      (innermost Condition.guard around).Clashes ∨ ∀ k ∈ around, (innermost Condition.guard around).Covers k.guard := by
  have hinner : ∀ v, (∀ k ∈ around, k.guard.Holds v) → (innermost Condition.guard around).Holds v := by
    intro v hv
    unfold innermost
    cases hlast : around.getLast? with
    | none => exact Guard.holds_blank v
    | some k => exact hv k (List.mem_of_getLast? hlast)
  constructor
  · intro h
    by_cases hclash : (innermost Condition.guard around).Clashes
    · exact .inl hclash
    · refine .inr fun k hk => ?_
      have hfollows := Guard.follows_iff.1 fun v hv => (h v).1 hv k hk
      exact hfollows.resolve_left hclash
  · intro h v
    refine ⟨fun hv k hk => ?_, hinner v⟩
    exact Guard.follows_iff.2 (h.imp_right fun hcovers => hcovers k hk) v hv

end Occurrence

/-- **An effect is read, or refused because the body of a `when` is itself one.**  If it is read, a literal is recorded
under the innermost of the conditions around it, whatever the others are.  That means all of them exactly if it asks for
all that the others ask for, or can never hold. -/
theorem Effect.readClause_means_all_iff (place : Place) (e : Effect) (r : Reading) :
    ((readClause place e.tree r).outcome = .error (.refused (.keywordInBody place.text)) ∧ e.isSpaced = false) ∨
    ((∃ m, (readClause place e.tree r).outcome = .ok m) ∧ e.isSpaced = true ∧
      r.Appends (readClause place e.tree r).reading (Occurrence.clauses Condition.guard true (e.occurrences []))
        (Occurrence.clauses Condition.guard false (e.occurrences [])) ∧
      ∀ o ∈ e.occurrences [],
        (∀ v, (Occurrence.innermost Condition.guard o.around).Holds v ↔ ∀ k ∈ o.around, k.guard.Holds v) ↔
          (Occurrence.innermost Condition.guard o.around).Clashes ∨
            ∀ k ∈ o.around, (Occurrence.innermost Condition.guard o.around).Covers k.guard) := by
  cases hspaced : e.isSpaced with
  | false =>
    have hread := readsAs_readClause place e r
    cases houtcome : (readClause place e.tree r).outcome with
    | error fault =>
      rw [houtcome] at hread
      exact .inl ⟨congrArg Except.error hread.2, rfl⟩
    | ok m =>
      rw [houtcome, hspaced] at hread
      exact absurd hread.1 (by decide)
  | true =>
    obtain ⟨hok, happends⟩ := exists_ok_of_isSpaced hspaced place r
    exact .inr ⟨hok, rfl, happends, fun o _ => Occurrence.innermost_means_all_iff o.around⟩

/-- A door that is unlocked opens, if it is pushed. -/
def opened : Effect :=
  .guarded (.literal ⟨true, [.word "unlocked"]⟩ ⟨_, _, rfl, rfl⟩)
    (.all [.guarded (.literal ⟨true, [.word "pushed"]⟩ ⟨_, _, rfl, rfl⟩)
      (.literal ⟨true, [.word "open"]⟩ ⟨_, _, rfl, rfl⟩)])

/-- The door opens if it is pushed, locked or not. -/
theorem Effect.readClause_means_all_iff_opened :
    (∃ m, (readClause ⟨"push effects", false⟩ opened.tree {}).outcome = .ok m) ∧
    Reading.Appends {} (readClause ⟨"push effects", false⟩ opened.tree {}).reading
      [⟨.list [.word "open"], [.list [.word "pushed"]], blankConditions, blankConditions⟩] [] ∧
    ¬ ∀ o ∈ opened.occurrences [], ∀ v,
      (Occurrence.innermost Condition.guard o.around).Holds v ↔ ∀ k ∈ o.around, k.guard.Holds v := by
  rcases Effect.readClause_means_all_iff ⟨"push effects", false⟩ opened {} with
    ⟨-, hspaced⟩ | ⟨hok, -, happends, hmeans⟩
  · cases hspaced
  · refine ⟨hok, happends, fun hall => ?_⟩
    have hstated : ∀ w : String, w ≠ "" → IsStated (.list [.word w]) := fun w hw => by simp [IsStated, hw]
    rcases (hmeans _ List.mem_cons_self).1 (hall _ List.mem_cons_self) with ⟨c, -, hneg⟩ | hcovers
    · -- nothing is asked not to hold
      exact hneg.2.2 (List.mem_singleton.1 hneg.1)
    · have hunlocked := hcovers _ List.mem_cons_self true (.list [.word "unlocked"])
        ⟨List.mem_singleton_self _, hstated _ (by decide)⟩
      exact absurd (List.mem_singleton.1 hunlocked.1) (by decide)

/-! ## Conjunctions inside a condition -/

theorem Literal.mem_atoms {affirmed : Bool} {ls : List Literal} {c : Tree} :
    c ∈ atoms affirmed ls ↔ ∃ l ∈ ls, l.affirmed = affirmed ∧ c = .list l.items := by
  simp only [atoms, List.mem_map, List.mem_filter, beq_iff_eq, and_assoc, eq_comm (a := c)]

/-- A list of formulas is no formula: it begins with a list, or is empty. -/
theorem Literal.IsHeaded.ne_atoms {l : Literal} (h : l.IsHeaded) (affirmed : Bool) (ls : List Literal) :
    Tree.list l.items ≠ .list (atoms affirmed ls) := by
  obtain ⟨w, rest, hitems, -⟩ := h
  intro heq
  have hword : .word w ∈ atoms affirmed ls := by
    rw [← Tree.list.inj heq, hitems]
    exact List.mem_cons_self
  obtain ⟨l', -, -, hl'⟩ := mem_atoms.1 hword
  cases hl'

theorem Literal.IsHeaded.isStated_iff {l : Literal} (h : l.IsHeaded) :
    IsStated (.list l.items) ↔ l.items ≠ [.word ""] := by
  obtain ⟨w, rest, hitems, -⟩ := h
  simp [IsStated, hitems]

namespace Condition

theorem mem_own {ks : List Condition} {l : Literal} : l ∈ own ks ↔ ∃ h, literal l h ∈ ks := by
  rw [own, List.mem_filterMap]
  constructor
  · rintro ⟨k, hk, hl⟩
    cases k with
    | literal l' h =>
      cases hl
      exact ⟨h, hk⟩
    | all ks' => cases hl
  · rintro ⟨h, hk⟩
    exact ⟨_, hk, rfl⟩

theorem mem_literalsAll {ks : List Condition} {l : Literal} :
    l ∈ literalsAll ks ↔ l ∈ own ks ∨ ∃ ks', all ks' ∈ ks ∧ l ∈ literalsAll ks' := by
  induction ks with
  | nil => simp [literalsAll, own]
  | cons k ks ih =>
    cases k with
    | literal l' h => simp [literalsAll, literals, ih, or_assoc]
    | all ks' =>
      simp only [literalsAll, literals, List.mem_append, ih, own_all, List.mem_cons, all.injEq]
      constructor
      · rintro (hl | hl | ⟨ks₁, hks₁, hl⟩)
        · exact .inr ⟨ks', .inl rfl, hl⟩
        · exact .inl hl
        · exact .inr ⟨ks₁, .inr hks₁, hl⟩
      · rintro (hl | ⟨ks₁, rfl | hks₁, hl⟩)
        · exact .inr (.inl hl)
        · exact .inl hl
        · exact .inr (.inr ⟨ks₁, hks₁, hl⟩)

mutual
theorem isHeaded_of_mem_literals : ∀ {k : Condition} {l : Literal}, l ∈ k.literals → l.IsHeaded
  | literal l' h, l, hl => by
    rw [literals, List.mem_singleton] at hl
    exact hl ▸ h
  | all ks, l, hl => by
    rw [literals] at hl
    exact isHeaded_of_mem_literalsAll hl
theorem isHeaded_of_mem_literalsAll : ∀ {ks : List Condition} {l : Literal}, l ∈ literalsAll ks → l.IsHeaded
  | [], l, hl => by cases hl
  | k :: ks, l, hl => by
    rw [literalsAll, List.mem_append] at hl
    exact hl.elim isHeaded_of_mem_literals isHeaded_of_mem_literalsAll
end

theorem mem_denied {ks : List Condition} {c : Tree} : c ∈ ks.filterMap denied? ↔
    (∃ l ∈ own ks, l.affirmed = false ∧ c = .list l.items) ∨
      ∃ ks', all ks' ∈ ks ∧ c = .list (Literal.atoms true (own ks')) := by
  rw [List.mem_filterMap]
  constructor
  · rintro ⟨k, hk, hc⟩
    cases k with
    | literal l h =>
      rcases l with ⟨_ | _, items⟩
      · cases hc
        exact .inl ⟨_, mem_own.2 ⟨h, hk⟩, rfl, rfl⟩
      · cases hc
    | all ks' =>
      cases hc
      exact .inr ⟨ks', hk, rfl⟩
  · rintro (⟨⟨_, items⟩, hl, rfl, rfl⟩ | ⟨ks', hk, rfl⟩)
    · obtain ⟨h, hk⟩ := mem_own.1 hl
      exact ⟨_, hk, rfl⟩
    · exact ⟨_, hk, rfl⟩

theorem asks_stated_iff {ks : List Condition} {affirmed : Bool} {c : Tree} : (all ks).stated.Asks affirmed c ↔
    (∃ l ∈ literalsAll ks, l.affirmed = affirmed ∧ c = .list l.items) ∧ IsStated c := by
  cases affirmed <;> simp [Guard.Asks, stated, Literal.mem_atoms]

theorem asks_guard_iff {ks : List Condition} {affirmed : Bool} {c : Tree} : (all ks).guard.Asks affirmed c ↔
    ((∃ l ∈ own ks, l.affirmed = affirmed ∧ c = .list l.items) ∨
      affirmed = false ∧ ∃ ks', all ks' ∈ ks ∧ c = .list (Literal.atoms true (own ks'))) ∧ IsStated c := by
  cases affirmed with
  | true => simp [Guard.Asks, guard, Literal.mem_atoms]
  | false =>
    rw [Guard.Asks, if_neg Bool.false_ne_true, guard, mem_denied]
    simp

/-- A conjunction asks for all that it states exactly if the literals that stand deeper are conjuncts too. -/
theorem guard_covers_stated_iff {ks : List Condition} : (all ks).guard.Covers (all ks).stated ↔
    ∀ ks', all ks' ∈ ks → ∀ l ∈ literalsAll ks', l.items = [.word ""] ∨ l ∈ own ks := by
  constructor
  · intro h ks' hks' l hl
    have hheaded := isHeaded_of_mem_literalsAll hl
    by_cases hblank : l.items = [.word ""]
    · exact .inl hblank
    have hstated : (all ks).stated.Asks l.affirmed (.list l.items) :=
      asks_stated_iff.2 ⟨⟨l, mem_literalsAll.2 (.inr ⟨ks', hks', hl⟩), rfl, rfl⟩, hheaded.isStated_iff.2 hblank⟩
    obtain ⟨⟨l', hl', hsign, hitems⟩ | ⟨-, ks₁, -, hlist⟩, -⟩ := asks_guard_iff.1 (h _ _ hstated)
    · have hsame : l = l' := by
        cases l
        cases l'
        cases hitems
        cases hsign
        rfl
      exact .inr (hsame ▸ hl')
    · exact absurd hlist (hheaded.ne_atoms _ _)
  · rintro h affirmed c hc
    obtain ⟨⟨l, hl, rfl, rfl⟩, hstated⟩ := asks_stated_iff.1 hc
    refine asks_guard_iff.2 ⟨.inl ⟨l, ?_, rfl, rfl⟩, hstated⟩
    rcases mem_literalsAll.1 hl with hown | ⟨ks', hks', hdeep⟩
    · exact hown
    · have hblank := (isHeaded_of_mem_literalsAll hl).isStated_iff.1 hstated
      exact (h ks' hks' l hdeep).resolve_left hblank

/-- A conjunction asks for nothing but what it states exactly if no conjunction in it has affirmed conjuncts. -/
theorem stated_covers_guard_iff {ks : List Condition} : (all ks).stated.Covers (all ks).guard ↔
    ∀ ks', all ks' ∈ ks → Literal.atoms true (own ks') = [] := by
  constructor
  · intro h ks' hks'
    by_contra hne
    have hstated : IsStated (.list (Literal.atoms true (own ks'))) := by
      refine ⟨fun hnil => hne (Tree.list.inj hnil), fun hblank => ?_⟩
      have hword : .word "" ∈ Literal.atoms true (own ks') := by
        rw [Tree.list.inj hblank]
        exact List.mem_cons_self
      obtain ⟨l, -, -, hl⟩ := Literal.mem_atoms.1 hword
      cases hl
    have hasked := h false _ (asks_guard_iff.2 ⟨.inr ⟨rfl, ks', hks', rfl⟩, hstated⟩)
    obtain ⟨⟨l, hl, -, hlist⟩, -⟩ := asks_stated_iff.1 hasked
    exact (isHeaded_of_mem_literalsAll hl).ne_atoms _ _ hlist.symm
  · intro h affirmed c hc
    obtain ⟨⟨l, hl, hsign, rfl⟩ | ⟨-, ks', hks', rfl⟩, hstated⟩ := asks_guard_iff.1 hc
    · exact asks_stated_iff.2 ⟨⟨l, mem_literalsAll.2 (.inl hl), hsign, rfl⟩, hstated⟩
    · rw [h ks' hks'] at hstated
      exact absurd rfl hstated.1

theorem clashes_stated_of_guard {ks : List Condition} (h : (all ks).guard.Clashes) : (all ks).stated.Clashes := by
  obtain ⟨c, hpos, hneg⟩ := h
  obtain ⟨⟨l, hl, hsign, rfl⟩ | ⟨hsign, -⟩, hstated⟩ := asks_guard_iff.1 hpos
  · have hdeep := mem_literalsAll.2 (.inl hl)
    refine ⟨_, asks_stated_iff.2 ⟨⟨l, hdeep, hsign, rfl⟩, hstated⟩, ?_⟩
    obtain ⟨⟨l', hl', hsign', hitems⟩ | ⟨-, ks', -, hlist⟩, -⟩ := asks_guard_iff.1 hneg
    · exact asks_stated_iff.2 ⟨⟨l', mem_literalsAll.2 (.inl hl'), hsign', hitems⟩, hstated⟩
    · exact absurd hlist ((isHeaded_of_mem_literalsAll hdeep).ne_atoms _ _)
  · cases hsign

/-- Each conjunction among the conjuncts has no affirmed conjuncts, and all its literals are conjuncts themselves. -/
def Absorbs : Condition → Prop
  | literal _ _ => True
  | all ks => ∀ ks', all ks' ∈ ks →
      Literal.atoms true (own ks') = [] ∧ ∀ l ∈ literalsAll ks', l.items = [.word ""] ∨ l ∈ own ks

/-- **A condition means what it states** exactly if it can never hold, or what stands deeper in it adds nothing. -/
theorem guard_means_stated_iff (k : Condition) :
    (∀ v, k.guard.Holds v ↔ k.stated.Holds v) ↔ k.guard.Clashes ∨ k.Absorbs := by
  cases k with
  | literal l h => exact iff_of_true (fun v => Iff.rfl) (.inr trivial)
  | all ks =>
    rw [forall_congr' fun _ => iff_iff_implies_and_implies, forall_and, Guard.follows_iff, Guard.follows_iff]
    have habsorbs : (all ks).Absorbs ↔ (all ks).guard.Covers (all ks).stated ∧
        (all ks).stated.Covers (all ks).guard := by
      rw [guard_covers_stated_iff, stated_covers_guard_iff]
      exact ⟨fun h => ⟨fun ks' hks' => (h ks' hks').2, fun ks' hks' => (h ks' hks').1⟩,
        fun h ks' hks' => ⟨h.2 ks' hks', h.1 ks' hks'⟩⟩
    rw [habsorbs]
    constructor
    · rintro ⟨hclash | hcovers, hback⟩
      · exact .inl hclash
      · exact hback.elim (fun hclash => .inl (hclash.of_covers hcovers)) fun hback => .inr ⟨hcovers, hback⟩
    · rintro (hclash | ⟨hcovers, hback⟩)
      · exact ⟨.inl hclash, .inl (clashes_stated_of_guard hclash)⟩
      · exact ⟨.inr hcovers, .inr hback⟩

/-- **A condition is read with the literals that it states** exactly if no conjunct of it is a conjunction. -/
theorem guard_lists_stated_iff (k : Condition) : (∀ c, (c ∈ k.guard.positive ↔ c ∈ k.stated.positive) ∧
    (c ∈ k.guard.negative ↔ c ∈ k.stated.negative)) ↔ k.isFlat = true := by
  constructor
  · intro h
    cases k with
    | literal l _ => rfl
    | all ks =>
      refine List.all_eq_true.2 fun k hk => ?_
      cases k with
      | literal l _ => rfl
      | all ks' =>
        have hlisted := (h _).2.1 (mem_denied.2 (.inr ⟨ks', hk, rfl⟩))
        obtain ⟨l, hl, -, hlist⟩ := Literal.mem_atoms.1 hlisted
        exact absurd hlist.symm ((isHeaded_of_mem_literalsAll hl).ne_atoms _ _)
  · intro h c
    rw [guard_of_isFlat h]
    exact ⟨Iff.rfl, Iff.rfl⟩

/-- **A condition is read with its own conjuncts only.**  The literals of a body are recorded under the guard that it is
read as.  That guard has the literals of the condition, by their signs, exactly if no conjunct is a conjunction; and it
means what the condition states exactly if it can never hold, or the conjunctions in it add nothing. -/
theorem readClause_means_stated_iff (place : Place) (k : Condition) (body : Effect)
    (hbody : body.nests (fun _ => true) 0 = true) (r : Reading) :
    (∃ m, (readClause place (Effect.guarded k body).tree r).outcome = .ok m) ∧
    r.Appends (readClause place (Effect.guarded k body).tree r).reading
      (Occurrence.clauses Condition.guard true (body.occurrences [k]))
      (Occurrence.clauses Condition.guard false (body.occurrences [k])) ∧
    (∀ o ∈ body.occurrences [k], o.around = [k]) ∧
    ((∀ c, (c ∈ k.guard.positive ↔ c ∈ k.stated.positive) ∧ (c ∈ k.guard.negative ↔ c ∈ k.stated.negative)) ↔
      k.isFlat = true) ∧
    ((∀ v, k.guard.Holds v ↔ k.stated.Holds v) ↔ k.guard.Clashes ∨ k.Absorbs) := by
  have hnests : (Effect.guarded k body).nests (fun _ => true) 1 = true := by simpa [Effect.nests] using hbody
  obtain ⟨hok, happends⟩ := Effect.exists_ok_of_isSpaced (Effect.isSpaced_of_nests (Nat.le_refl 1) hnests) place r
  refine ⟨hok, happends, fun o ho => ?_, guard_lists_stated_iff k, guard_means_stated_iff k⟩
  obtain ⟨inner, haround, hlength, -⟩ := Effect.around_of_nests hbody o ho
  rw [haround, List.length_eq_zero_iff.1 (Nat.le_zero.1 hlength), List.append_nil]

/-- It is night, and the lamp is wired and not faulty. -/
def lit : Condition :=
  .all [.literal ⟨true, [.word "night"]⟩ ⟨_, _, rfl, rfl⟩,
    .all [.literal ⟨true, [.word "wired"]⟩ ⟨_, _, rfl, rfl⟩, .literal ⟨false, [.word "faulty"]⟩ ⟨_, _, rfl, rfl⟩]]

/-- The list of `wired` is denied, and that the lamp must not be faulty is lost. -/
theorem readClause_means_stated_iff_lit :
    (Effect.literal ⟨true, [.word "shining"]⟩ ⟨_, _, rfl, rfl⟩).nests (fun _ => true) 0 = true ∧
    Reading.Appends {}
      (readClause ⟨"shine effects", false⟩
        (Effect.guarded lit (.literal ⟨true, [.word "shining"]⟩ ⟨_, _, rfl, rfl⟩)).tree {}).reading
      [⟨.list [.word "shining"], [.list [.word "night"]], [.list [.list [.word "wired"]]], blankConditions⟩] [] ∧
    ¬ ∀ v, lit.guard.Holds v ↔ lit.stated.Holds v := by
  obtain ⟨-, happends, -, -, hmeans⟩ := readClause_means_stated_iff ⟨"shine effects", false⟩ lit
    (.literal ⟨true, [.word "shining"]⟩ ⟨_, _, rfl, rfl⟩) rfl {}
  refine ⟨rfl, happends, fun hall => ?_⟩
  rcases hmeans.1 hall with ⟨c, hpos, hneg⟩ | habsorbs
  · have hnight := List.mem_singleton.1 hpos.1
    exact absurd (hnight.symm.trans (List.mem_singleton.1 hneg.1)) (by decide)
  · exact absurd (habsorbs _ (List.mem_cons_of_mem _ List.mem_cons_self)).1 (by decide)

end Condition
end Epistemic
