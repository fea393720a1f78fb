import Epistemic.Proofs.Documents
import Epistemic.Proofs.GuardCopies
import Epistemic.Proofs.ReadGuards
/-!
# Guards that are cleared

Printing an action in mAp clears the guards that it prints where they stand: those of effects, and those of the clauses
that name an agent (`MAp.clears_action`).  An action without parameters is printed as it stands in the task, so that the
task has other guards when it has been written (`Session.writeMAp_leaves`).
-/
namespace Epistemic

open Work (Keeps perform_bind_eq_ok perform_ofExcept_bind_eq_ok)

/-! ## Clearing -/

/-- The conditions, without what stands for none. -/
def withoutBlank (cs : List Tree) : List Tree := if cs = blankConditions then [] else cs

theorem withoutBlank_of_ne {cs : List Tree} (h : cs ≠ blankConditions) : withoutBlank cs = cs := if_neg h

/-- Conditions that clearing leaves as they are once they have been cleared. -/
def Settled (cs : List Tree) : Prop := tidy (tidy cs).1 = tidy cs

theorem clearBlanks_snd {cs : List Tree} : (clearBlanks cs).2 = none ↔ ∀ c ∈ cs, c.isList = true := by
  induction cs with
  | nil => simp [clearBlanks]
  | cons c cs ih =>
    cases c with
    | word w => simp [clearBlanks, Tree.isList]
    | list xs => simp [clearBlanks, Tree.isList, ih]

/-- A word of the text is not blank, so none is taken out. -/
theorem clearBlanks_fst {cs : List Tree} (h : ∀ c ∈ cs, c.AllWords Source.IsOnLine) : (clearBlanks cs).1 = cs := by
  induction cs with
  | nil => rfl
  | cons c cs ih =>
    obtain ⟨hc, hcs⟩ := List.forall_mem_cons.1 h
    cases c with
    | word w => rfl
    | list xs =>
      have hnone : Tree.word "" ∉ xs := fun hm => (Tree.allWords_list.1 hc _ hm).1 rfl
      simp only [clearBlanks, ih hcs, List.erase_of_not_mem hnone]

theorem mem_of_mem_dropEmpties {c : Tree} {seen cs : List Tree} (h : c ∈ dropEmpties seen cs) : c ∈ seen ∨ c ∈ cs := by
  fun_induction dropEmpties seen cs with
  | case1 seen => exact .inl h
  | case2 seen d hd => exact List.mem_append.1 (List.mem_of_mem_erase h)
  | case3 seen d hd => exact List.mem_append.1 h
  | case4 seen d d' cs hd ih =>
    rcases ih h with h | h
    · rcases List.mem_append.1 h with h | h
      · exact (List.mem_append.1 (List.mem_of_mem_erase h)).imp_right fun h => by simp_all
      · exact .inr (by simp_all)
    · exact .inr (by simp [h])
  | case5 seen d d' cs hd ih =>
    rcases ih h with h | h
    · exact (List.mem_append.1 h).imp_right fun h => by simp_all
    · exact .inr (List.mem_cons_of_mem d h)

theorem dropEmpties_of_forall {seen cs : List Tree} (h : ∀ c ∈ cs, c ≠ .list []) :
    dropEmpties seen cs = seen ++ cs := by
  fun_induction dropEmpties seen cs with
  | case1 seen => exact (List.append_nil seen).symm
  | case2 seen d hd => exact absurd (by simpa using hd) (h d List.mem_cons_self)
  | case3 seen d hd => rfl
  | case4 seen d d' cs hd ih => exact absurd (by simpa using hd) (h d List.mem_cons_self)
  | case5 seen d d' cs hd ih =>
    rw [ih (List.forall_mem_cons.1 h).2, List.append_assoc]
    rfl

/-- A condition with words, of which none is empty. -/
def IsFull (c : Tree) : Prop := ∃ xs, c = .list xs ∧ xs ≠ [] ∧ .word "" ∉ xs

/-- Nothing is cleared from conditions that are full. -/
theorem tidy_of_full {cs : List Tree} (h : ∀ c ∈ cs, IsFull c) : tidy cs = (cs, none) := by
  have hcleared : clearBlanks cs = (cs, none) := by
    induction cs with
    | nil => rfl
    | cons c cs ih =>
      obtain ⟨⟨xs, rfl, -, hblank⟩, hcs⟩ := List.forall_mem_cons.1 h
      rw [clearBlanks, ih hcs]
      simp only [List.erase_of_not_mem hblank]
  have hempty : ∀ c ∈ cs, c ≠ .list [] := by
    intro c hc
    obtain ⟨xs, rfl, hne, -⟩ := h c hc
    simpa using hne
  rw [tidy, hcleared]
  simp only [dropEmpties_of_forall hempty, List.nil_append]

theorem tidy_of_clear {cs : List Tree} (hwords : ∀ c ∈ cs, c.AllWords Source.IsOnLine)
    (hlists : ∀ c ∈ cs, c.isList = true) : tidy cs = (dropEmpties [] cs, none) := by
  have hcleared : clearBlanks cs = (cs, none) := Prod.ext (clearBlanks_fst hwords) (clearBlanks_snd.2 hlists)
  rw [tidy, hcleared]

/-- Conditions that were written and cleared are settled, if nothing empty is left among them. -/
theorem AreWritten.settled {cs : List Tree} (h : AreWritten Source.IsOnLine cs) (hclear : (tidy cs).2 = none)
    (hfull : ∀ c ∈ (tidy cs).1, c ≠ .list []) : Settled cs := by
  rcases h with rfl | hwords
  · rfl
  have hlists : ∀ c ∈ cs, c.isList = true := by
    rw [← clearBlanks_snd]
    unfold tidy at hclear
    split at hclear
    · cases hclear
    · rename_i heq
      rw [heq]
  have htidy := tidy_of_clear hwords hlists
  rw [htidy] at hfull
  have hmem : ∀ c ∈ dropEmpties [] cs, c ∈ cs := fun c hc => (mem_of_mem_dropEmpties hc).elim (fun h => by cases h) id
  have hagain := tidy_of_clear (fun c hc => hwords c (hmem c hc)) fun c hc => hlists c (hmem c hc)
  rw [Settled, htidy, hagain, dropEmpties_of_forall hfull, List.nil_append]

theorem AreWritten.tidy {cs : List Tree} (h : AreWritten Source.IsOnLine cs) :
    AreWritten Source.IsOnLine (tidy cs).1 := by
  rcases h with rfl | hwords
  · exact .inr fun c hc => by cases hc
  · refine .inr fun c hc => hwords c ?_
    have hkept := clearBlanks_fst hwords
    unfold Epistemic.tidy at hc
    split at hc
    · rename_i heq
      rwa [← hkept, heq]
    · rename_i heq
      rw [← hkept, heq]
      exact (mem_of_mem_dropEmpties hc).elim (fun h => by cases h) id

namespace Guard

/-- A guard that has been cleared. -/
def tidied (g : Guard) : Guard := ⟨(tidy g.positive).1, (tidy g.negative).1⟩

/-- Both lists of conditions are settled. -/
structure Settled (g : Guard) : Prop where
  positive : Epistemic.Settled g.positive
  negative : Epistemic.Settled g.negative

theorem Settled.tidied_tidied {g : Guard} (h : g.Settled) : g.tidied.tidied = g.tidied := by
  simp only [tidied, Guard.mk.injEq]
  exact ⟨congrArg Prod.fst h.positive, congrArg Prod.fst h.negative⟩

theorem Written.tidied {g : Guard} (h : g.Written Source.IsOnLine) : g.tidied.Written Source.IsOnLine :=
  ⟨h.positive.tidy, h.negative.tidy⟩

end Guard

namespace MAp

theorem conditions_ok {positive first printed : Bool} {cs : List Tree}
    (h : (conditions positive first cs).outcome = .ok printed) :
    (conditions positive first cs).left = (tidy cs).1 ∧ (tidy cs).2 = none ∧ ∀ c ∈ (tidy cs).1, c ≠ .list [] := by
  rcases htidy : tidy cs with ⟨left, fault⟩
  cases fault with
  | some e =>
    simp only [conditions, htidy] at h
    cases h
  | none =>
    cases left with
    | nil => simp [conditions, htidy]
    | cons c cs' =>
      rcases horder : listedInOrder (signText positive) false (c :: cs') with ⟨text, fault⟩
      cases fault with
      | some e =>
        simp only [conditions, htidy, horder] at h
        cases h
      | none =>
        refine ⟨by simp only [conditions, htidy, horder], rfl, fun d hd => ?_⟩
        rintro rfl
        -- an empty condition has no first item, so no order of printing is found
        have hempty : (c :: cs').any (·.items.isEmpty) = true := List.any_eq_true.2 ⟨_, hd, rfl⟩
        rw [listedInOrder, beliefsFirst, if_pos hempty] at horder
        cases horder

/-- **A guard that was printed is cleared**, and settled if it was written. -/
theorem guard_ok {g : Guard} {printed : Bool} (hg : g.Written Source.IsOnLine) (h : (guard g).outcome = .ok printed) :
    (guard g).left = g.tidied ∧ g.Settled := by
  unfold guard printBoth at h ⊢
  simp only at h ⊢
  split at h
  · cases h
  · rename_i first hfirst
    obtain ⟨hpositive, hclear, hfull⟩ := conditions_ok hfirst
    cases hsecond : (conditions false (!first) g.negative).outcome with
    | error e =>
      rw [hsecond] at h
      cases h
    | ok second =>
      obtain ⟨hnegative, hclear', hfull'⟩ := conditions_ok hsecond
      simp only [Guard.tidied, hpositive, hnegative]
      exact ⟨trivial, hg.positive.settled hclear hfull, hg.negative.settled hclear' hfull'⟩

end MAp

/-! ## Sheets -/

/-- Guards that are written out, in a table. -/
def AllWritten (guards : List Guard) : Prop := ∀ i, (guardAt guards i).Written Source.IsOnLine

/-- A table of guards before and after some of them were cleared. -/
structure Cleared (places : Nat → Prop) (guards left : List Guard) : Prop where
  length : left.length = guards.length
  inside : ∀ i, places i → guardAt left i = (guardAt guards i).tidied ∧ (guardAt guards i).Settled
  outside : ∀ i, ¬ places i → guardAt left i = guardAt guards i

section
variable {p q : Nat → Prop} {guards mid left : List Guard}

theorem Cleared.refl (guards : List Guard) : Cleared (fun _ => False) guards guards :=
  ⟨rfl, fun _ h => h.elim, fun _ _ => rfl⟩

theorem Cleared.trans (h : Cleared p guards mid) (h' : Cleared q mid left) :
    Cleared (fun i => p i ∨ q i) guards left where
  length := h'.length.trans h.length
  inside i hi := by
    by_cases hp : p i
    · obtain ⟨htidied, hsettled⟩ := h.inside i hp
      refine ⟨?_, hsettled⟩
      by_cases hq : q i
      · rw [(h'.inside i hq).1, htidied, hsettled.tidied_tidied]
      · rw [h'.outside i hq, htidied]
    · have hq := hi.resolve_left hp
      rw [← h.outside i hp]
      exact h'.inside i hq
  outside i hi := by
    rw [not_or] at hi
    rw [h'.outside i hi.2, h.outside i hi.1]

theorem Cleared.allWritten (h : Cleared p guards left) (hw : AllWritten guards) : AllWritten left := by
  intro i
  by_cases hi : p i
  · rw [(h.inside i hi).1]
    exact (hw i).tidied
  · rw [h.outside i hi]
    exact hw i

end

/-- Steps that clear the guards at some places, if they go well. -/
def Clears {α : Type} (places : Nat → Prop) (w : Work Sheet α) : Prop :=
  ∀ sheet a done, AllWritten sheet.guards → w.perform sheet = (.ok a, done) → Cleared places sheet.guards done.guards

namespace Clears

section
variable {α β : Type} {p q : Nat → Prop} {w : Work Sheet α} {f : α → Work Sheet β}

theorem congr (h : Clears p w) (hpq : ∀ i, p i ↔ q i) : Clears q w := by
  obtain rfl : p = q := funext fun i => propext (hpq i)
  exact h

theorem ofKeeps (h : ∀ guards, w.Keeps (·.guards = guards)) : Clears (fun _ => False) w := by
  intro sheet a done _ hrun
  rw [(h sheet.guards).of_ok hrun rfl]
  exact .refl _

theorem bind (hw : Clears p w) (hf : ∀ a, Clears q (f a)) : Clears (fun i => p i ∨ q i) (w >>= f) := by
  intro sheet b done hwritten hrun
  obtain ⟨a, mid, hmid, hdone⟩ := perform_bind_eq_ok.1 hrun
  have hfirst := hw sheet a mid hwritten hmid
  exact hfirst.trans (hf a mid b done (hfirst.allWritten hwritten) hdone)

theorem ofExcept_bind {r : Except Fault α} (hf : ∀ a, r = .ok a → Clears q (f a)) :
    Clears q (Work.ofExcept r >>= f) := by
  intro sheet b done hwritten hrun
  obtain ⟨a, hr, hdone⟩ := perform_ofExcept_bind_eq_ok.1 hrun
  exact hf a hr sheet b done hwritten hdone

theorem write (s : String) : Clears (fun _ => False) (Sheet.write s) := ofKeeps fun _ _ h => h

theorem behind (hw : Clears (fun _ => False) w) (hf : ∀ a, Clears q (f a)) : Clears q (w >>= f) :=
  (hw.bind hf).congr fun _ => or_iff_right id

theorem before (hw : Clears p w) (hf : ∀ a, Clears (fun _ => False) (f a)) : Clears p (w >>= f) :=
  (hw.bind hf).congr fun _ => or_iff_left id

theorem each {p : β → Nat → Prop} {f : β → Work Sheet Unit} {bs : List β} (h : ∀ b, Clears (p b) (f b)) :
    Clears (fun i => ∃ b ∈ bs, p b i) (Work.each f bs) := by
  induction bs with
  | nil =>
    have hnone : Clears (fun _ => False) (Work.each f []) := ofKeeps fun _ _ h => h
    exact hnone.congr fun i => by simp
  | cons b bs ih => exact ((h b).bind fun _ => ih).congr fun i => by simp

end

/-- **Printing the guard at a place clears it.** -/
theorem printGuard (i : Nat) : Clears (i = ·) (Sheet.printGuard MAp.guard i) := by
  intro sheet printed done hwritten hrun
  rw [Sheet.perform_printGuard] at hrun
  obtain ⟨houtcome, rfl⟩ := Prod.mk.inj hrun
  obtain ⟨hleft, hsettled⟩ := MAp.guard_ok (hwritten i) houtcome
  refine ⟨List.length_set, ?_, fun j hj => ?_⟩
  · intro j hj
    subst hj
    refine ⟨?_, hsettled⟩
    by_cases hi : i < sheet.guards.length
    · rw [guardAt_set, if_pos ⟨rfl, hi⟩, hleft]
    · have hnone : guardAt sheet.guards i = ⟨[], []⟩ := by simp [guardAt, Nat.le_of_not_lt hi]
      rw [guardAt_set, if_neg fun h => hi h.2, hnone]
      rfl
  · rw [guardAt_set, if_neg fun h => hj h.1]

end Clears

namespace MAp

/-- The entries of the observers that are printed. -/
def observerEntries (dialect : Dialect) (groups : List Tree) (a : Action) : List Entry :=
  match dialect, a.observers with
  | .levels, .levels full inPart => full ++ inPart
  | .groups, .groups members => groups.flatMap fun g =>
    match Action.groupEntries members g with
    | .ok es => es
    | .error _ => []
  | _, _ => []

/-- Whether a clause names an agent. -/
def namesAgent (e : Entry) : Bool := e.body.items.any (!isMarked ·)

/-- The entries whose guards are printed where they stand. -/
def printedEntries (dialect : Dialect) (groups : List Tree) (a : Action) : List Entry :=
  a.addEffects ++ a.deleteEffects ++ (observerEntries dialect groups a).filter namesAgent

/-- Printing an action clears the guard at a place. -/
def ClearsAt (dialect : Dialect) (groups : List Tree) (a : Action) (i : Nat) : Prop :=
  ∃ e ∈ printedEntries dialect groups a, e.guard = i

instance (dialect : Dialect) (groups : List Tree) (a : Action) (i : Nat) : Decidable (ClearsAt dialect groups a i) :=
  inferInstanceAs (Decidable (∃ e ∈ printedEntries dialect groups a, e.guard = i))

theorem clears_effect (name verb sign : String) (e : Entry) : Clears (e.guard = ·) (effect name verb sign e) := by
  refine (Clears.write _).behind fun _ => .ofExcept_bind fun text _ => (Clears.write _).behind fun _ => ?_
  exact (Clears.printGuard e.guard).before fun _ => Clears.write _

/-- **A quantified clause is printed from a copy of its guard**, for each agent. -/
theorem keeps_quantifiedObserver (name verb : String) (e : Entry) (agent : Tree) (guards : List Guard) :
    Keeps (·.guards = guards) (quantifiedObserver name verb e agent) := by
  rw [quantifiedObserver_eq]
  refine (Keeps.ofExcept _).bind fun left => ?_
  split
  · exact fun _ h => h
  · refine Keeps.bind ?_ fun agent => Keeps.bind (fun _ h => h) fun _ => Keeps.bind (fun _ h => h) fun g => ?_
    · unfold Sheet.nameOf
      split <;> exact fun _ h => h
    · refine (Keeps.ofExcept _).bind fun g => Keeps.bind (fun sheet h => ?_) fun _ => fun _ h => h
      rw [Sheet.perform_writePrinted]
      exact h

theorem clears_observer (agents : Except Fault (List Tree)) (name verb : String) (e : Entry) (ag : Tree) :
    Clears (fun i => isMarked ag = false ∧ e.guard = i) (observer agents name verb e ag) := by
  unfold observer
  by_cases hag : isMarked ag = true
  · rw [if_pos hag]
    have hone : ∀ agent, Clears (fun _ => False) (quantifiedObserver name verb e agent) := fun agent =>
      Clears.ofKeeps (keeps_quantifiedObserver name verb e agent)
    refine (Clears.ofExcept_bind fun agents _ => (Clears.each hone).congr fun i => ?_)
    simp [hag]
  · rw [if_neg hag]
    refine ((Clears.write _).behind fun _ => (Clears.printGuard e.guard).before fun _ =>
      Clears.write _).congr fun i => ?_
    simp [hag]

theorem clears_observers (agents : Except Fault (List Tree)) (name verb : String) (es : List Entry) :
    Clears (fun i => ∃ e ∈ es.filter namesAgent, e.guard = i) (observers agents name verb es) := by
  refine (Clears.each fun e => Clears.each fun ag => clears_observer agents name verb e ag).congr fun i => ?_
  simp only [List.mem_filter, namesAgent, List.any_eq_true, Bool.not_eq_true']
  constructor
  · rintro ⟨e, he, ag, hag, hplain, hi⟩
    exact ⟨e, ⟨he, ag, hag, hplain⟩, hi⟩
  · rintro ⟨e, ⟨he, ag, hag, hplain⟩, hi⟩
    exact ⟨e, he, ag, hag, hplain, hi⟩

theorem clears_effects (dialect : Dialect) (a : Action) :
    Clears (fun i => ∃ e ∈ a.addEffects ++ a.deleteEffects, e.guard = i) (effects dialect a) := by
  refine ((Clears.each fun e => clears_effect _ _ _ e).bind fun _ => .each fun e =>
    clears_effect _ _ _ e).congr fun i => ?_
  simp only [List.mem_append, or_and_right, exists_or]

theorem clears_preconditions (a : Action) : Clears (fun _ => False) (preconditions a) := by
  refine Clears.ofKeeps fun guards => ?_
  have hlisted : ∀ listed, Keeps (fun sheet : Sheet => sheet.guards = guards) (writeListed listed) := by
    rintro ⟨text, _ | e⟩
    · exact fun _ h => h
    · exact Keeps.bind (fun _ h => h) fun _ _ h => h
  unfold preconditions
  split
  · exact fun _ h => h
  · exact Keeps.bind (fun _ h => h) fun _ => (hlisted _).bind fun _ => (hlisted _).bind fun _ _ h => h

theorem clears_levelObservers (agents : Except Fault (List Tree)) (groups : List Tree) (a : Action) :
    Clears (fun i => ∃ e ∈ (observerEntries .levels groups a).filter namesAgent, e.guard = i) (do
      fullObservers agents a
      observersInPart agents a) := by
  unfold fullObservers observersInPart observerEntries
  cases a.observers with
  | levels full inPart =>
    refine ((clears_observers agents _ _ full).bind fun _ => clears_observers agents _ _ inPart).congr fun i => ?_
    simp only [List.filter_append, List.mem_append, or_and_right, exists_or]
  | groups members =>
    have hnone : Clears (fun _ => False) (do pure (); pure () : Work Sheet Unit) := Clears.ofKeeps fun _ _ h => h
    exact hnone.congr fun i => by simp

theorem clears_groupObservers (agents : Except Fault (List Tree)) (groups : List Tree) (a : Action) :
    Clears (fun i => ∃ e ∈ (observerEntries .groups groups a).filter namesAgent, e.guard = i)
      (groupObservers agents groups a) := by
  unfold groupObservers observerEntries
  cases a.observers with
  | levels full inPart =>
    have hnone : Clears (fun _ => False) (pure () : Work Sheet Unit) := Clears.ofKeeps fun _ _ h => h
    exact hnone.congr fun i => by simp
  | groups members =>
    refine (Clears.each (p := fun g i => ∃ es, Action.groupEntries members g = .ok es ∧
      ∃ e ∈ es.filter namesAgent, e.guard = i) fun g => ?_).congr fun i => ?_
    · refine Clears.behind (Clears.ofKeeps fun guards => ?_) fun name => .ofExcept_bind fun es hes => ?_
      · unfold Sheet.nameOf
        split <;> exact fun _ h => h
      · refine (clears_observers agents _ _ es).congr fun i => ?_
        simp [hes]
    · simp only [List.mem_filter, List.mem_flatMap]
      constructor
      · rintro ⟨g, hg, es, hes, e, he, hi⟩
        exact ⟨e, ⟨⟨g, hg, by simpa only [hes] using he.1⟩, he.2⟩, hi⟩
      · rintro ⟨e, ⟨⟨g, hg, he⟩, hnames⟩, hi⟩
        cases hes : Action.groupEntries members g with
        | error _ =>
          rw [hes] at he
          cases he
        | ok es =>
          rw [hes] at he
          exact ⟨g, hg, es, hes, e, ⟨he, hnames⟩, hi⟩

/-- **Printing an action clears the guards that are printed where they stand.** -/
theorem clears_action (dialect : Dialect) (agents : Except Fault (List Tree)) (groups : List Tree) (a : Action) :
    Clears (ClearsAt dialect groups a) (action dialect agents groups a) := by
  refine (Clears.write _).behind fun _ => (Clears.write _).behind fun _ => (clears_preconditions a).behind fun _ => ?_
  refine ((clears_effects dialect a).bind (q := fun i => ∃ e ∈ (observerEntries dialect groups a).filter namesAgent,
    e.guard = i) fun _ => ?_).congr fun i => ?_
  · cases dialect with
    | levels =>
      have hobservers := (clears_levelObservers agents groups a).before fun _ => Clears.write "\n%%%\n\n"
      simpa only [bind_assoc] using hobservers
    | groups =>
      refine (Clears.write _).behind fun _ => ?_
      exact (clears_groupObservers agents groups a).before fun _ => Clears.write _
  · simp only [ClearsAt, printedEntries, List.mem_append, or_and_right, exists_or]

end MAp

/-! ## Drafts -/

/-- Ground actions in the order of the actions that they come from, the first of which has a place in the task. -/
inductive Placed : Nat → List Action → List GroundAction → Prop
  | nil (i : Nat) : Placed i [] []
  | itself {i : Nat} {a : Action} {as : List Action} {Gs : List GroundAction} (hparameters : a.parameters = [])
      (h : Placed (i + 1) as Gs) : Placed i (a :: as) (⟨a, some i⟩ :: Gs)
  | filled {i : Nat} {a : Action} {as : List Action} {new Gs : List GroundAction} (hparameters : a.parameters ≠ [])
      (hnew : ∀ G ∈ new, G.place = none) (h : Placed (i + 1) as Gs) : Placed i (a :: as) (new ++ Gs)

/-- What an action adds when it has parameters has no place in the task. -/
theorem Action.ground_filled {finish : Action → Except Fault Action} {objects types : Hierarchy} {distinct : Bool}
    {groups : List Tree} {place : Nat} {a : Action} {g g' : Grounding} (hparameters : a.parameters ≠ [])
    (h : (a.ground finish objects types distinct groups place).perform g = (.ok (), g')) :
    ∃ new : List GroundAction, g'.actions = new.reverse ++ g.actions ∧ ∀ G ∈ new, G.place = none := by
  have hkeeps : (a.ground finish objects types distinct groups place).Keeps fun g' =>
      ∃ new : List GroundAction, g'.actions = new.reverse ++ g.actions ∧ ∀ G ∈ new, G.place = none := by
    unfold ground
    rw [if_neg (by simpa using hparameters)]
    refine (Keeps.ofExcept _).bind fun ranges => .each fun choice _ => (Keeps.ofExcept _).bind fun kept => ?_
    split
    · refine Keeps.bind (fun g' hg' => ?_) fun ground => (Keeps.ofExcept _).bind fun done => fun g' hg' => ?_
      · rw [Grounding.perform_recording]
        exact hg'
      · obtain ⟨new, hactions, hnew⟩ := hg'
        refine ⟨new ++ [{ action := done }], ?_, ?_⟩
        · simp [Grounding.add, hactions]
        · exact List.forall_mem_append.2 ⟨hnew, by simp⟩
    · exact fun _ h => h
  exact hkeeps.of_ok h ⟨[], rfl, by simp⟩

namespace MAp

theorem placed_groundFrom {d : Domain} : ∀ {as : List Action} {i : Nat} {g g' : Grounding},
    (groundFrom Action.underGroundName d i as).perform g = (.ok (), g') →
      ∃ new, g'.actions = new.reverse ++ g.actions ∧ Placed i as new
  | [], i, g, g', h => by
    cases h
    exact ⟨[], rfl, .nil i⟩
  | a :: as, i, g, g', h => by
    obtain ⟨_, mid, hfirst, hrest⟩ := perform_bind_eq_ok.1 h
    obtain ⟨later, hlater, hplaced⟩ := placed_groundFrom hrest
    by_cases hparameters : a.parameters = []
    · have hname : a.groundName = .ok a.name := by
        rw [Action.groundName, hparameters]
        rfl
      rw [Action.ground, if_pos (by simp [hparameters]), Action.underGroundName, hname] at hfirst
      cases hfirst
      exact ⟨⟨a, some i⟩ :: later, by simp [hlater], .itself hparameters hplaced⟩
    · obtain ⟨new, hnew, hplaces⟩ := Action.ground_filled hparameters hfirst
      exact ⟨new ++ later, by simp [hlater, hnew], .filled hparameters hplaces hplaced⟩

theorem placed_groundTask {t : Task} {d : Domain} {g : Grounding} (h : (groundTask t d).perform {} = (.ok (), g)) :
    Placed 0 d.actions g.actions.reverse := by
  obtain ⟨_, mid, hground, h⟩ := perform_bind_eq_ok.1 h
  rw [Grounding.perform_recording] at h
  obtain ⟨-, rfl⟩ := Prod.mk.inj h
  obtain ⟨new, hnew, hplaced⟩ := placed_groundFrom hground
  simpa [hnew] using hplaced

end MAp

/-- An action of the task when all have been printed: one without parameters has the guards that printing leaves. -/
inductive Draft.Leaves (how : Action → Work Sheet Unit) (a : Action) : Action → Prop
  | printed {sheet : Sheet} (hparameters : a.parameters = [])
      (h : (how a).perform { guards := a.guards } = (.ok (), sheet)) : Leaves how a { a with guards := sheet.guards }
  | same (hparameters : a.parameters ≠ []) : Leaves how a a

section
variable {how : Action → Work Sheet Unit}

/-- An action from which others were ground is left as it was, and no other has lost more than guards. -/
theorem Draft.Leaves.eq {a b : Action} (h : Draft.Leaves how a b) :
    (a.parameters ≠ [] → b = a) ∧ ∃ guards, b = { a with guards } := by
  cases h with
  | printed hparameters _ => exact ⟨fun hne => absurd hparameters hne, _, rfl⟩
  | same _ => exact ⟨fun _ => rfl, a.guards, rfl⟩

theorem modify_length_append {α : Type} (f : α → α) (pre : List α) (a : α) (as : List α) :
    (pre ++ a :: as).modify pre.length f = pre ++ f a :: as := by
  induction pre with
  | nil => rfl
  | cons b pre ih => rw [List.cons_append, List.length_cons, List.modify_succ_cons, ih, List.cons_append]

theorem Draft.print_eq_ok {place : Option Nat} {a : Action} {draft done : Draft}
    (h : (Draft.print how place a).perform draft = (.ok (), done)) :
    ∃ sheet, (how a).perform { guards := a.guards } = (.ok (), sheet) ∧
      done.actions = setGuards place sheet.guards draft.actions := by
  rw [Draft.print, Work.perform_bind_ok (Work.perform_modify _ draft), Work.perform_ofExcept] at h
  obtain ⟨hok, rfl⟩ := Prod.mk.inj h
  exact ⟨_, Prod.ext hok rfl, rfl⟩

theorem Draft.each_print_none {Gs : List GroundAction} (h : ∀ G ∈ Gs, G.place = none) (actions : List Action) :
    (Work.each (fun G => Draft.print how G.place G.action) Gs).Keeps (·.actions = actions) := by
  refine Keeps.each fun G hG draft hdraft => ?_
  rw [h G hG, Draft.print, Work.perform_bind_ok (Work.perform_modify _ draft), Work.perform_ofExcept]
  exact hdraft

/-- **When ground actions have been printed**, every action without parameters has the guards that printing leaves. -/
theorem Placed.each_print {i : Nat} {as : List Action} {Gs : List GroundAction} (h : Placed i as Gs) :
    ∀ {pre : List Action} {draft done : Draft}, pre.length = i → draft.actions = pre ++ as →
      (Work.each (fun G => Draft.print how G.place G.action) Gs).perform draft = (.ok (), done) →
      ∃ left, done.actions = pre ++ left ∧ List.Forall₂ (Draft.Leaves how) as left := by
  induction h with
  | nil i =>
    intro pre draft done _ hactions hrun
    cases hrun
    exact ⟨[], hactions, .nil⟩
  | @itself i a as Gs hparameters _ ih =>
    intro pre draft done hlength hactions hrun
    obtain ⟨_, mid, hfirst, hrest⟩ := perform_bind_eq_ok.1 hrun
    obtain ⟨sheet, hsheet, hmid⟩ := Draft.print_eq_ok hfirst
    have hset : mid.actions = (pre ++ [{ a with guards := sheet.guards }]) ++ as := by
      rw [hmid, Draft.setGuards, hactions, ← hlength, List.append_assoc]
      exact modify_length_append _ pre a as
    obtain ⟨left, hleft, hleaves⟩ := ih (by simp [hlength]) hset hrest
    exact ⟨_ :: left, by rw [hleft, List.append_assoc]; rfl, .cons (.printed hparameters hsheet) hleaves⟩
  | @filled i a as new Gs hparameters hnew _ ih =>
    intro pre draft done hlength hactions hrun
    rw [Work.each_append] at hrun
    obtain ⟨_, mid, hfirst, hrest⟩ := perform_bind_eq_ok.1 hrun
    have hmid : mid.actions = (pre ++ [a]) ++ as := by
      rw [(Draft.each_print_none hnew _).of_ok hfirst hactions, List.append_assoc]
      rfl
    obtain ⟨left, hleft, hleaves⟩ := ih (by simp [hlength]) hmid hrest
    exact ⟨a :: left, by rw [hleft, List.append_assoc]; rfl, .cons (.same hparameters) hleaves⟩

end

namespace MAp

/-- **The actions of the task when its document has been written.** -/
theorem document_leaves {t : Task} {d : Domain} {p : Problem} {draft done : Draft}
    (hactions : draft.actions = d.actions) (h : (document t d p).perform draft = (.ok (), done)) :
    List.Forall₂ (Draft.Leaves (action t.dialect d.agents d.groups)) d.actions done.actions := by
  have hopen : ∀ actions, Draft.Open (·.actions = actions) := fun _ _ _ h => h
  rw [document, perform_write_bind] at h
  obtain ⟨_, houtcome, hrest⟩ := perform_ofExcept_bind_eq_ok.1 h
  rw [perform_write_bind, perform_write_bind] at hrest
  obtain ⟨_, agents, hagents, hrest⟩ := perform_bind_eq_ok.1 hrest
  obtain ⟨_, mid, hsection, hrest⟩ := perform_bind_eq_ok.1 hrest
  obtain ⟨found, truth, htruth, hgoals⟩ := perform_bind_eq_ok.1 hrest
  rw [perform_write_bind] at hgoals
  have hbefore : agents.actions = [] ++ d.actions := (keeps_agentSection (hopen d.actions) d).of_ok hagents hactions
  rw [actionSection, perform_write_bind] at hsection
  obtain ⟨_, printed, hprinted, hrule⟩ := perform_bind_eq_ok.1 hsection
  have hplaced := placed_groundTask (Prod.ext houtcome rfl : (groundTask t d).perform {} = (.ok (), _))
  obtain ⟨left, hleft, hleaves⟩ := hplaced.each_print rfl (by exact hbefore) hprinted
  have hmid : mid.actions = left := ((hopen left).keeps _).of_ok hrule hleft
  have htrue : truth.actions = left := (keeps_truthSection (hopen left) _ p).of_ok htruth hmid
  have hdone : done.actions = left := (keeps_goalSection (hopen left) p).of_ok hgoals htrue
  rwa [hdone]

end MAp

namespace Session

theorem perform_writeFile {path : String} {document : Work Draft Unit} {s : Session} {d : Domain}
    (hd : s.task.domain = some d) : (writeFile path document).perform s =
      ((document.perform { actions := d.actions }).1, {
        task := { s.task with
          domain := some { d with actions := (document.perform { actions := d.actions }).2.actions } }
        report := s.report ++ (document.perform { actions := d.actions }).2.report
        files := s.files.insert path (document.perform { actions := d.actions }).2.text }) := by
  rw [writeFile, Work.perform_bind_ok (Work.perform_get s), Work.perform_bind_ok (Work.perform_modify _ s),
    Work.perform_ofExcept, hd, Task.withActions, hd]
  rfl

/-- **What writing a task in mAp does to a session**: the task has other guards, and there is one more file. -/
theorem writeMAp_leaves {folder : String} {s s' : Session} (h : (writeMAp folder).perform s = (.ok (), s')) :
    ∃ d p n q text left, s.task.domain = some d ∧ s.task.problem = some p ∧ d.name = .word n ∧ p.name = .word q ∧
      List.Forall₂ (Draft.Leaves (MAp.action s.task.dialect d.agents d.groups)) d.actions left ∧
      s'.task = { s.task with domain := some { d with actions := left } } ∧
      s'.files = s.files.insert (mApPath folder s.task.dialect d p) text := by
  obtain ⟨d, p, n, q, hd, hp, hn, hq, h⟩ := writeMAp_eq_ok h
  rw [perform_writeFile hd] at h
  obtain ⟨hok, rfl⟩ := Prod.mk.inj h
  exact ⟨d, p, n, q, _, _, hd, hp, hn, hq, MAp.document_leaves rfl (Prod.ext hok rfl), rfl, rfl⟩

end Session
end Epistemic
