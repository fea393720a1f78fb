import Epistemic.Proofs.Conditions
/-!
# What effects are read as

Literals are joined by `and` and guarded by `when`.  Reading such an effect records its literals from left to right,
each with the guard of the innermost `when` around it.  It stops exactly if the body of a `when` is itself one
(`Effect.readsAs_readClause`).  So an effect in which no `when` stands inside another, and no `and` inside the `and` of
a condition, is read as it is stated (`Effect.readClause_appends_stated`).
-/
namespace Epistemic

open MAp (asking)

/-! ## Conditions -/

/-- The formulas of the literals of one sign. -/
def Literal.atoms (affirmed : Bool) (ls : List Literal) : List Tree :=
  (ls.filter (·.affirmed == affirmed)).map fun l => .list l.items

/-- The condition of a `when`: literals joined by `and`, to any depth. -/
inductive Condition where
  | literal (l : Literal) (headed : l.IsHeaded)
  | all (parts : List Condition)

namespace Condition

mutual
/-- A condition as it is written. -/
def tree : Condition → Tree
  | literal l _ => l.tree
  | all ks => .list (.word "and" :: trees ks)
def trees : List Condition → List Tree
  | [] => []
  | k :: ks => k.tree :: trees ks
end

mutual
/-- The literals of a condition, from left to right. -/
def literals : Condition → List Literal
  | literal l _ => [l]
  | all ks => literalsAll ks
def literalsAll : List Condition → List Literal
  | [] => []
  | k :: ks => k.literals ++ literalsAll ks
end

def literal? : Condition → Option Literal
  | literal l _ => some l
  | all _ => none

/-- The conjuncts that are literals. -/
def own (ks : List Condition) : List Literal := ks.filterMap literal?

@[simp] theorem own_literal (l : Literal) (h : l.IsHeaded) (ks : List Condition) :
    own (literal l h :: ks) = l :: own ks := rfl

@[simp] theorem own_all (ks' ks : List Condition) : own (all ks' :: ks) = own ks := rfl

/-- Whether no conjunct is itself a conjunction. -/
def isFlat : Condition → Bool
  | literal _ _ => true
  | all ks => ks.all (·.literal?.isSome)

/-- The guard that a condition states: its literals, by their signs. -/
def stated : Condition → Guard
  | literal l _ => asking l.affirmed l.items blankConditions
  | all ks => ⟨Literal.atoms true (literalsAll ks), Literal.atoms false (literalsAll ks)⟩

/-- What a conjunct adds to the conditions that must not hold.  A conjunction adds the list of its own affirmed
conjuncts. -/
def denied? : Condition → Option Tree
  | literal l _ => if l.affirmed then none else some (.list l.items)
  | all ks => some (.list (Literal.atoms true (own ks)))

/-- The guard that a condition is read as. -/
def guard : Condition → Guard
  | literal l _ => asking l.affirmed l.items blankConditions
  | all ks => ⟨Literal.atoms true (own ks), ks.filterMap denied?⟩

def meaning : Condition → Meaning
  | literal l _ => l.meaning
  | all ks => .conjunction (guard (all ks)).positive (guard (all ks)).negative

theorem conjoin_meanings (ks : List Condition) :
    conjoin (ks.map meaning) = (Literal.atoms true (own ks), ks.filterMap denied?) := by
  induction ks with
  | nil => rfl
  | cons k ks ih =>
    rw [List.map_cons, conjoin, ih]
    cases k with
    | literal l h =>
      rcases l with ⟨_ | _, items⟩
      · simp [meaning, Literal.meaning, Literal.atoms, denied?]
      · simp [meaning, Literal.meaning, Literal.atoms, denied?]
    | all ks' => simp [meaning, guard, denied?]

mutual
/-- **A condition is read without being recorded.** -/
theorem readWithin_tree (place : Place) {s : Scope} (hs : s.recorded = false) (r : Reading) :
    ∀ (k : Condition) (fuel : Nat), k.tree.depth < fuel →
      ∃ left, readWithin place fuel s k.tree r = ⟨r, left, .ok k.meaning⟩
  | _, 0, hfuel => absurd hfuel (Nat.not_lt_zero _)
  | literal l h, fuel + 1, _ => by
    have hrecord : l.record s r = r := by
      rcases l with ⟨_ | _, items⟩ <;> simp [Literal.record, Reading.addPositive, Reading.addNegative, hs]
    exact ⟨_, by rw [tree, l.readWithin_tree h, hrecord, meaning]⟩
  | all ks, fuel + 1, hfuel => by
    rw [tree, Tree.depth] at hfuel
    obtain ⟨left, hread⟩ := readEach_trees place hs r ks fuel (by simp [Tree.depthItems, Tree.depth] at hfuel; omega)
    have hand : Keyword.of? (.word "and") = some .and := rfl
    refine ⟨.list left, ?_⟩
    simp only [tree, readWithin, hand, hread, Except.map, conjoin_meanings]
    rfl
theorem readEach_trees (place : Place) {s : Scope} (hs : s.recorded = false) (r : Reading) :
    ∀ (ks : List Condition) (fuel : Nat), Tree.depthItems (trees ks) < fuel →
      ∃ left, readEach (readWithin place fuel s) (trees ks) r = ⟨r, left, .ok (ks.map meaning)⟩
  | [], _, _ => ⟨[], rfl⟩
  | k :: ks, fuel, hfuel => by
    rw [trees, Tree.depthItems] at hfuel
    obtain ⟨first, hfirst⟩ := readWithin_tree place hs r k fuel (by omega)
    obtain ⟨rest, hrest⟩ := readEach_trees place hs r ks fuel (by omega)
    exact ⟨first :: rest, by simp [trees, readEach, hfirst, hrest, Except.map]⟩
end

/-- **A condition is read as its guard.** -/
theorem readCondition_tree (place : Place) (k : Condition) {fuel : Nat} (hfuel : k.tree.depth < fuel) (r : Reading) :
    readCondition place (readWithin place fuel) k.tree r = .ok k.guard := by
  cases k with
  | literal l h => exact l.readCondition_tree h place _ r
  | all ks =>
    obtain ⟨left, hread⟩ := readWithin_tree place (s := ⟨0, blankConditions, false⟩) rfl r (all ks) fuel hfuel
    have hand : headKeyword? (all ks).tree = .ok (some .and) := rfl
    unfold readCondition
    simp only [hand, hread, meaning]

theorem guard_of_isFlat {k : Condition} (h : k.isFlat = true) : k.guard = k.stated := by
  cases k with
  | literal l _ => rfl
  | all ks =>
    have hparts : ∀ k ∈ ks, ∃ l hl, k = literal l hl := by
      intro k hk
      have hsome := List.all_eq_true.1 h k hk
      cases k with
      | literal l hl => exact ⟨l, hl, rfl⟩
      | all ks' => cases hsome
    clear h
    induction ks with
    | nil => rfl
    | cons k ks ih =>
      obtain ⟨⟨l, hl, rfl⟩, hothers⟩ := List.forall_mem_cons.1 hparts
      have hrest := ih hothers
      rw [guard, stated, Guard.mk.injEq] at hrest ⊢
      rcases l with ⟨_ | _, items⟩
      · simpa [Literal.atoms, literalsAll, literals, denied?] using hrest
      · simpa [Literal.atoms, literalsAll, literals, denied?] using hrest

end Condition

/-! ## Effects -/

/-- An effect: literals that are joined by `and` and guarded by `when`, to any depth. -/
inductive Effect where
  | literal (l : Literal) (headed : l.IsHeaded)
  | all (parts : List Effect)
  | guarded (condition : Condition) (body : Effect)

/-- A literal of an effect, with the conditions of all `when`s around it, from the outermost in. -/
structure Occurrence where
  literal : Literal
  around : List Condition

namespace Effect

mutual
/-- An effect as it is written. -/
def tree : Effect → Tree
  | literal l _ => l.tree
  | all es => .list (.word "and" :: trees es)
  | guarded k e => .list [.word "when", k.tree, e.tree]
def trees : List Effect → List Tree
  | [] => []
  | e :: es => e.tree :: trees es
end

mutual
/-- The literals of an effect, from left to right. -/
def occurrences (around : List Condition) : Effect → List Occurrence
  | literal l _ => [⟨l, around⟩]
  | all es => occurrencesAll around es
  | guarded k e => e.occurrences (around ++ [k])
def occurrencesAll (around : List Condition) : List Effect → List Occurrence
  | [] => []
  | e :: es => e.occurrences around ++ occurrencesAll around es
end

def isGuarded : Effect → Bool
  | guarded _ _ => true
  | _ => false

mutual
/-- Whether the body of no `when` is itself one. -/
def isSpaced : Effect → Bool
  | literal _ _ => true
  | all es => areSpaced es
  | guarded _ e => !e.isGuarded && e.isSpaced
def areSpaced : List Effect → Bool
  | [] => true
  | e :: es => e.isSpaced && areSpaced es
end

end Effect

namespace Occurrence

/-- The guard of the innermost `when` around a literal, where `guardOf` says what its condition comes to. -/
def innermost (guardOf : Condition → Guard) (around : List Condition) : Guard :=
  (around.getLast?.map guardOf).getD .blank

/-- The literals of one sign, each with the guard of the innermost `when` around it. -/
def clauses (guardOf : Condition → Guard) (affirmed : Bool) (os : List Occurrence) : List Clause :=
  (os.filter (·.literal.affirmed == affirmed)).map fun o =>
    ⟨.list o.literal.items, (innermost guardOf o.around).positive, (innermost guardOf o.around).negative,
      blankConditions⟩

end Occurrence

/-- One reading goes on from another: it has more guards, and more entries, which stand for given clauses. -/
def Reading.Appends (r r' : Reading) (positive negative : List Clause) : Prop :=
  ∃ guards adds deletes, r' = ⟨r.guards ++ guards, r.positive ++ adds, r.negative ++ deletes⟩ ∧
    (∀ e ∈ adds ++ deletes, e.guard < r'.guards.length) ∧
    adds.map (·.clause r'.guards) = positive ∧ deletes.map (·.clause r'.guards) = negative

/-- Literals are recorded in a scope, under the guard of the innermost `when` around them. -/
structure Scope.Within (s : Scope) (around : List Condition) (r : Reading) : Prop where
  recorded : s.recorded = true
  excluded : s.excluded = blankConditions
  bound : s.guard < r.guards.length
  guard : guardAt r.guards s.guard = Occurrence.innermost Condition.guard around

/-- What reading literals comes to: they are recorded, unless the body of a `when` is itself one. -/
def ReadsAs {α : Type} (place : Place) (spaced : Bool) (os : List Occurrence) (r r' : Reading) : Except Fault α → Prop
  | .ok _ => spaced = true ∧
      r.Appends r' (Occurrence.clauses Condition.guard true os) (Occurrence.clauses Condition.guard false os)
  | .error e => spaced = false ∧ e = .refused (.keywordInBody place.text)

theorem guardAt_append {guards : List Guard} {i : Nat} (h : i < guards.length) (more : List Guard) :
    guardAt (guards ++ more) i = guardAt guards i := by
  simp [guardAt, List.getElem?_append_left h]

theorem map_clause_append {guards : List Guard} {es : List Entry} (h : ∀ e ∈ es, e.guard < guards.length)
    (more : List Guard) : es.map (·.clause (guards ++ more)) = es.map (·.clause guards) := by
  refine List.map_congr_left fun e he => ?_
  rw [Entry.clause, guardAt_append (h e he)]
  rfl

namespace Reading.Appends

theorem refl (r : Reading) : r.Appends r [] [] := ⟨[], [], [], by simp, by simp, rfl, rfl⟩

theorem trans {r r' r'' : Reading} {positive negative positive' negative' : List Clause}
    (h : r.Appends r' positive negative) (h' : r'.Appends r'' positive' negative') :
    r.Appends r'' (positive ++ positive') (negative ++ negative') := by
  obtain ⟨guards, adds, deletes, rfl, hbound, rfl, rfl⟩ := h
  obtain ⟨guards', adds', deletes', rfl, hbound', rfl, rfl⟩ := h'
  obtain ⟨hadds, hdeletes⟩ := List.forall_mem_append.1 hbound
  refine ⟨guards ++ guards', adds ++ adds', deletes ++ deletes', by simp only [List.append_assoc], ?_, ?_, ?_⟩
  · -- entries point at guards by index, and the table only grows at its end
    intro e he
    have hmem : e ∈ adds ++ deletes ∨ e ∈ adds' ++ deletes' := by
      simp only [List.mem_append] at he ⊢
      tauto
    rcases hmem with hmem | hmem
    · exact Nat.lt_of_lt_of_le (hbound e hmem) (by simp)
    · exact hbound' e hmem
  · rw [List.map_append, map_clause_append hadds]
  · rw [List.map_append, map_clause_append hdeletes]

theorem addGuard (r : Reading) (g : Guard) : r.Appends (r.addGuard g).1 [] [] :=
  ⟨[g], [], [], by simp [Reading.addGuard], by simp, rfl, rfl⟩

end Reading.Appends

theorem Scope.Within.appends {s : Scope} {around : List Condition} {r r' : Reading} {positive negative : List Clause}
    (h : s.Within around r) (hr : r.Appends r' positive negative) : s.Within around r' := by
  obtain ⟨guards, adds, deletes, rfl, -⟩ := hr
  refine ⟨h.recorded, h.excluded, ?_, ?_⟩
  · exact Nat.lt_of_lt_of_le h.bound (by simp)
  · rw [guardAt_append h.bound]
    exact h.guard

theorem Occurrence.clauses_append (guardOf : Condition → Guard) (affirmed : Bool) (os os' : List Occurrence) :
    clauses guardOf affirmed (os ++ os') = clauses guardOf affirmed os ++ clauses guardOf affirmed os' := by
  rw [clauses, List.filter_append, List.map_append]
  rfl

theorem Occurrence.clauses_congr {f g : Condition → Guard} {os : List Occurrence}
    (h : ∀ o ∈ os, ∀ k ∈ o.around, f k = g k) (affirmed : Bool) : clauses f affirmed os = clauses g affirmed os := by
  refine List.map_congr_left fun o ho => ?_
  have hguard : innermost f o.around = innermost g o.around := by
    unfold innermost
    cases hlast : o.around.getLast? with
    | none => rfl
    | some k => exact h o (List.mem_of_mem_filter ho) k (List.mem_of_getLast? hlast)
  rw [hguard]

theorem Literal.appends_record {s : Scope} {around : List Condition} {r : Reading} (hs : s.Within around r)
    (l : Literal) : r.Appends (l.record s r) (Occurrence.clauses Condition.guard true [⟨l, around⟩])
      (Occurrence.clauses Condition.guard false [⟨l, around⟩]) := by
  rcases l with ⟨_ | _, items⟩
  · refine ⟨[], [], [⟨.list items, s.guard, s.excluded⟩], ?_, ?_, rfl, ?_⟩
    · simp [Literal.record, Reading.addNegative, hs.recorded]
    · simpa [Literal.record, Reading.addNegative, hs.recorded] using hs.bound
    · simp [Literal.record, Reading.addNegative, hs.recorded, Entry.clause, hs.guard, hs.excluded, Occurrence.clauses]
  · refine ⟨[], [⟨.list items, s.guard, s.excluded⟩], [], ?_, ?_, ?_, rfl⟩
    · simp [Literal.record, Reading.addPositive, hs.recorded]
    · simpa [Literal.record, Reading.addPositive, hs.recorded] using hs.bound
    · simp [Literal.record, Reading.addPositive, hs.recorded, Entry.clause, hs.guard, hs.excluded, Occurrence.clauses]

theorem ReadsAs.map {α β : Type} {place : Place} {spaced : Bool} {os : List Occurrence} {r r' : Reading}
    {outcome : Except Fault α} (f : α → β) (h : ReadsAs place spaced os r r' outcome) :
    ReadsAs place spaced os r r' (outcome.map f) := by
  cases outcome with
  | error e => exact h
  | ok a => exact h

theorem ReadsAs.after {α : Type} {place : Place} {spaced : Bool} {os os' : List Occurrence} {r r₁ r' : Reading}
    {outcome : Except Fault α} (h : ReadsAs place spaced os' r₁ r' outcome)
    (hr : r.Appends r₁ (Occurrence.clauses Condition.guard true os) (Occurrence.clauses Condition.guard false os)) :
    ReadsAs place spaced (os ++ os') r r' outcome := by
  cases outcome with
  | error e => exact h
  | ok a =>
    refine ⟨h.1, ?_⟩
    rw [Occurrence.clauses_append, Occurrence.clauses_append]
    exact hr.trans h.2

theorem ReadsAs.after_addGuard {α : Type} {place : Place} {spaced : Bool} {os : List Occurrence} {r r' : Reading}
    {g : Guard} {outcome : Except Fault α} (h : ReadsAs place spaced os (r.addGuard g).1 r' outcome) :
    ReadsAs place spaced os r r' outcome := by
  have hafter : ReadsAs place spaced ([] ++ os) r r' outcome := h.after (.addGuard r g)
  exact hafter

namespace Effect

theorem headKeyword?_tree (e : Effect) : ∃ k, headKeyword? e.tree = .ok k ∧ k ≠ some .forall ∧
    (k = some .when ↔ e.isGuarded = true) := by
  cases e with
  | literal l h =>
    refine ⟨_, l.headKeyword? h, ?_⟩
    cases l.affirmed <;> simp [isGuarded]
  | all es => exact ⟨some .and, rfl, by decide, by simp [isGuarded]⟩
  | guarded k e => exact ⟨some .when, rfl, by decide, by simp [isGuarded]⟩

/-- What stands behind `when` is refused if its body is a `when`, and else its body is read under the guard of its
condition. -/
theorem readWhen_trees {place : Place} {read : Scope → Tree → Reading → ReadTree} {k : Condition} {r : Reading}
    (hk : readCondition place read k.tree r = .ok k.guard) (s : Scope) (e : Effect) :
    readWhen place read s [k.tree, e.tree] r =
      if e.isGuarded then ⟨r, .list [], .error (.refused (.keywordInBody place.text))⟩
      else
        let done := read { s with guard := r.guards.length } e.tree (r.addGuard k.guard).1
        ⟨done.reading, .list [], done.outcome.map fun _ => .conditional done.left k.guard⟩ := by
  obtain ⟨keyword, hhead, hforall, hwhen⟩ := headKeyword?_tree e
  simp only [readWhen, hk, hhead]
  by_cases hguarded : e.isGuarded = true
  · obtain rfl := hwhen.2 hguarded
    simp only [if_pos hguarded]
  · rw [if_neg hguarded]
    rcases keyword with _ | _ | _ | _ | _
    · rfl
    · rfl
    · exact absurd (hwhen.1 rfl) hguarded
    · exact absurd rfl hforall
    · rfl

mutual
/-- **What an effect is read as**, in any scope that records its literals. -/
theorem readsAs_tree (place : Place) : ∀ (e : Effect) (around : List Condition) (fuel : Nat) (s : Scope) (r : Reading),
    e.tree.depth < fuel → s.Within around r →
    ReadsAs place e.isSpaced (e.occurrences around) r (readWithin place fuel s e.tree r).reading
      (readWithin place fuel s e.tree r).outcome
  | _, _, 0, _, _, hfuel, _ => absurd hfuel (Nat.not_lt_zero _)
  | literal l h, around, fuel + 1, s, r, _, hs => by
    rw [tree, l.readWithin_tree h]
    exact ⟨rfl, l.appends_record hs⟩
  | all es, around, fuel + 1, s, r, hfuel, hs => by
    have hdepth : Tree.depthItems (trees es) < fuel := by
      simp only [tree, Tree.depth, Tree.depthItems] at hfuel
      omega
    have hand : Keyword.of? (.word "and") = some .and := rfl
    simp only [tree, readWithin, hand]
    exact (readsAs_trees place es around fuel s r hdepth hs).map _
  | guarded k e, around, fuel + 1, s, r, hfuel, hs => by
    simp only [tree, Tree.depth, Tree.depthItems] at hfuel
    have hcondition : readCondition place (readWithin place fuel) k.tree r = .ok k.guard :=
      k.readCondition_tree place (by omega) r
    have hwhen : Keyword.of? (.word "when") = some .when := rfl
    simp only [tree, readWithin, hwhen, readWhen_trees hcondition, isSpaced, occurrences]
    by_cases hguarded : e.isGuarded = true
    · simp only [hguarded, if_true]
      exact ⟨rfl, rfl⟩
    · -- the body is read in a scope of its own, whatever the guard of the scope around it
      have hscope : Scope.Within { s with guard := r.guards.length } (around ++ [k]) (r.addGuard k.guard).1 :=
        ⟨hs.recorded, hs.excluded, by simp [Reading.addGuard],
          by simp [Reading.addGuard, guardAt, Occurrence.innermost]⟩
      have hbody := readsAs_tree place e (around ++ [k]) fuel _ _ (by omega) hscope
      simp only [hguarded, Bool.not_false, Bool.true_and]
      exact hbody.after_addGuard.map _
theorem readsAs_trees (place : Place) : ∀ (es : List Effect) (around : List Condition) (fuel : Nat) (s : Scope)
    (r : Reading), Tree.depthItems (trees es) < fuel → s.Within around r →
    ReadsAs place (areSpaced es) (occurrencesAll around es) r (readEach (readWithin place fuel s) (trees es) r).reading
      (readEach (readWithin place fuel s) (trees es) r).outcome
  | [], _, _, _, r, _, _ => ⟨rfl, .refl r⟩
  | e :: es, around, fuel, s, r, hfuel, hs => by
    simp only [trees, Tree.depthItems] at hfuel
    have hfirst := readsAs_tree place e around fuel s r (by omega) hs
    simp only [trees, readEach, areSpaced, occurrencesAll]
    rcases hread : readWithin place fuel s e.tree r with ⟨r₁, left, fault | m⟩
    · -- a fault in the first leaves the others unread, so nothing is asked of them
      rw [hread] at hfirst
      exact ⟨by rw [hfirst.1]; rfl, hfirst.2⟩
    · rw [hread] at hfirst
      obtain ⟨hspaced, hadded⟩ := hfirst
      rw [hspaced, Bool.true_and]
      exact ((readsAs_trees place es around fuel s r₁ (by omega) (hs.appends hadded)).after hadded).map _
end

/-- **What a clause is read as.**  Its literals are recorded with the guard of the innermost `when`, and it is refused
exactly if the body of a `when` is itself one. -/
theorem readsAs_readClause (place : Place) (e : Effect) (r : Reading) :
    ReadsAs place e.isSpaced (e.occurrences []) r (readClause place e.tree r).reading
      (readClause place e.tree r).outcome := by
  have hscope : Scope.Within ⟨r.guards.length, blankConditions, true⟩ [] (r.addGuard .blank).1 :=
    ⟨rfl, rfl, by simp [Reading.addGuard], by simp [Reading.addGuard, guardAt, Occurrence.innermost]⟩
  exact (readsAs_tree place e [] _ _ _ (Nat.lt_succ_self _) hscope).after_addGuard

/-! ## Effects without nested conditions -/

mutual
/-- Whether `when`s are nested at most so deep, and their conditions are of a kind. -/
def nests (kind : Condition → Bool) : Nat → Effect → Bool
  | _, literal _ _ => true
  | n, all es => nestsAll kind n es
  | 0, guarded _ _ => false
  | n + 1, guarded k e => kind k && e.nests kind n
def nestsAll (kind : Condition → Bool) : Nat → List Effect → Bool
  | _, [] => true
  | n, e :: es => e.nests kind n && nestsAll kind n es
end

variable {kind : Condition → Bool}

mutual
theorem around_of_nests {around : List Condition} : ∀ {n : Nat} {e : Effect}, e.nests kind n = true →
    ∀ o ∈ e.occurrences around, ∃ inner, o.around = around ++ inner ∧ inner.length ≤ n ∧ ∀ k ∈ inner, kind k = true
  | n, literal l _, _ => by
    simp only [occurrences, List.mem_singleton, forall_eq]
    exact ⟨[], (List.append_nil _).symm, Nat.zero_le n, fun k hk => by cases hk⟩
  | n, all es, h => by
    have hes : nestsAll kind n es = true := by simpa [nests] using h
    exact around_of_nestsAll hes
  | 0, guarded _ _, h => by simp [nests] at h
  | n + 1, guarded k e, h => by
    simp only [nests, Bool.and_eq_true] at h
    intro o ho
    obtain ⟨inner, hinner, hlength, hkinds⟩ := around_of_nests h.2 o ho
    exact ⟨k :: inner, by simp [hinner], Nat.succ_le_succ hlength, List.forall_mem_cons.2 ⟨h.1, hkinds⟩⟩
theorem around_of_nestsAll {around : List Condition} : ∀ {n : Nat} {es : List Effect}, nestsAll kind n es = true →
    ∀ o ∈ occurrencesAll around es,
      ∃ inner, o.around = around ++ inner ∧ inner.length ≤ n ∧ ∀ k ∈ inner, kind k = true
  | _, [], _ => fun o ho => by cases ho
  | n, e :: es, h => by
    simp only [nestsAll, Bool.and_eq_true] at h
    intro o ho
    rcases List.mem_append.1 ho with ho | ho
    · exact around_of_nests h.1 o ho
    · exact around_of_nestsAll h.2 o ho
end

mutual
theorem isSpaced_of_nests : ∀ {n : Nat} {e : Effect}, n ≤ 1 → e.nests kind n = true → e.isSpaced = true
  | _, literal _ _, _, _ => rfl
  | n, all es, hn, h => by
    have hes : nestsAll kind n es = true := by simpa [nests] using h
    exact areSpaced_of_nestsAll hn hes
  | 0, guarded _ _, _, h => by simp [nests] at h
  | n + 1, guarded k e, hn, h => by
    obtain rfl : n = 0 := by omega
    simp only [nests, Bool.and_eq_true] at h
    have hplain : e.isGuarded = false := by
      cases e with
      | guarded k' e' => simp [nests] at h
      | _ => rfl
    simp [isSpaced, hplain, isSpaced_of_nests (Nat.zero_le 1) h.2]
theorem areSpaced_of_nestsAll : ∀ {n : Nat} {es : List Effect}, n ≤ 1 → nestsAll kind n es = true →
    areSpaced es = true
  | _, [], _, _ => rfl
  | n, e :: es, hn, h => by
    simp only [nestsAll, Bool.and_eq_true] at h
    simp [areSpaced, isSpaced_of_nests hn h.1, areSpaced_of_nestsAll hn h.2]
end

theorem exists_ok_of_isSpaced {e : Effect} (h : e.isSpaced = true) (place : Place) (r : Reading) :
    (∃ m, (readClause place e.tree r).outcome = .ok m) ∧
    r.Appends (readClause place e.tree r).reading (Occurrence.clauses Condition.guard true (e.occurrences []))
      (Occurrence.clauses Condition.guard false (e.occurrences [])) := by
  have hread := readsAs_readClause place e r
  cases houtcome : (readClause place e.tree r).outcome with
  | error fault =>
    rw [houtcome, h] at hread
    exact absurd hread.1 (by decide)
  | ok m =>
    rw [houtcome] at hread
    exact ⟨⟨m, rfl⟩, hread.2⟩

/-- **An effect without nested conditions is read as it is stated.**  Its literals are recorded from left to right, each
with the literals of the condition around it, by their signs, or with a blank guard if there is none. -/
theorem readClause_appends_stated (place : Place) (e : Effect) (he : e.nests Condition.isFlat 1 = true) (r : Reading) :
    (∃ m, (readClause place e.tree r).outcome = .ok m) ∧
    r.Appends (readClause place e.tree r).reading (Occurrence.clauses Condition.stated true (e.occurrences []))
      (Occurrence.clauses Condition.stated false (e.occurrences [])) := by
  obtain ⟨hok, happends⟩ := exists_ok_of_isSpaced (isSpaced_of_nests (Nat.le_refl 1) he) place r
  have hstated : ∀ o ∈ e.occurrences [], ∀ k ∈ o.around, k.guard = k.stated := by
    intro o ho k hk
    obtain ⟨inner, haround, -, hflat⟩ := around_of_nests he o ho
    rw [haround, List.nil_append] at hk
    exact Condition.guard_of_isFlat (hflat k hk)
  rw [Occurrence.clauses_congr hstated, Occurrence.clauses_congr hstated] at happends
  exact ⟨hok, happends⟩

/-- A lamp is switched on.  In the dark it is seen and no longer hidden, unless it is broken, and by day it is not on.
-/
def switched : Effect :=
  .all [.literal ⟨true, [.word "on"]⟩ ⟨_, _, rfl, rfl⟩,
    .guarded (.all [.literal ⟨true, [.word "dark"]⟩ ⟨_, _, rfl, rfl⟩,
      .literal ⟨false, [.word "broken"]⟩ ⟨_, _, rfl, rfl⟩])
      (.all [.literal ⟨true, [.word "seen"]⟩ ⟨_, _, rfl, rfl⟩, .literal ⟨false, [.word "hidden"]⟩ ⟨_, _, rfl, rfl⟩]),
    .guarded (.literal ⟨false, [.word "dark"]⟩ ⟨_, _, rfl, rfl⟩) (.literal ⟨false, [.word "on"]⟩ ⟨_, _, rfl, rfl⟩)]

theorem readClause_appends_stated_switched : switched.nests Condition.isFlat 1 = true ∧
    (∃ m, (readClause ⟨"switch effects", false⟩ switched.tree {}).outcome = .ok m) ∧
    Reading.Appends {} (readClause ⟨"switch effects", false⟩ switched.tree {}).reading
      [⟨.list [.word "on"], blankConditions, blankConditions, blankConditions⟩,
        ⟨.list [.word "seen"], [.list [.word "dark"]], [.list [.word "broken"]], blankConditions⟩]
      [⟨.list [.word "hidden"], [.list [.word "dark"]], [.list [.word "broken"]], blankConditions⟩,
        ⟨.list [.word "on"], blankConditions, [.list [.word "dark"]], blankConditions⟩] :=
  ⟨rfl, readClause_appends_stated _ switched rfl _⟩

end Effect
end Epistemic
