import Epistemic.Proofs.LevelGroups
/-!
# Groups that an action has entries for

An action that has an entry for each of the declared groups is ground and printed without missing one of them
(`Action.Covers.findsGroups_ground`, `Action.Covers.findsGroups_groupObservers`).  Where an entry is missing, grounding
and printing stop at the first such group (`Action.groundWith_eq_stop`, `Action.groupObservers_eq_stop`).
-/
namespace Epistemic

open Work (perform_bind_eq_ok)

/-! ## Results that are not a missing group -/

/-- A result that is not a missing group. -/
def FindsGroups {α : Type} (r : Except Fault α) : Prop := r ≠ .error .unknownGroup

namespace FindsGroups

variable {α β : Type} {r : Except Fault α}

theorem ok (a : α) : FindsGroups (.ok a) := fun h => by cases h

theorem bind {f : α → Except Fault β} (hr : FindsGroups r) (hf : ∀ a, FindsGroups (f a)) : FindsGroups (r >>= f) := by
  cases r with
  | error e => exact fun h => hr (congrArg Except.error (Except.error.inj h))
  | ok a => exact hf a

theorem map (f : α → β) (hr : FindsGroups r) : FindsGroups (r.map f) := by
  cases r with
  | error e => exact fun h => hr (congrArg Except.error (Except.error.inj h))
  | ok a => exact ok (f a)

theorem foldlM {f : α → β → Except Fault α} (hf : ∀ a b, FindsGroups (f a b)) : ∀ (bs : List β) (a : α),
    FindsGroups (bs.foldlM f a)
  | [], a => ok a
  | b :: bs, a => by
    rw [List.foldlM_cons]
    exact (hf a b).bind fun a => foldlM hf bs a

end FindsGroups

namespace Work

variable {σ α β : Type}

/-- Steps that do not stop at a missing group. -/
def FindsGroups (w : Work σ α) : Prop := ∀ s, Epistemic.FindsGroups (w.perform s).1

namespace FindsGroups

theorem ofPure (a : α) : FindsGroups (pure a : Work σ α) := fun _ => .ok a

theorem ofModify (f : σ → σ) : FindsGroups (modify f : Work σ Unit) := fun _ => .ok ()

theorem ofExcept {r : Except Fault α} (hr : Epistemic.FindsGroups r) : FindsGroups (Work.ofExcept r : Work σ α) := by
  intro s
  rwa [perform_ofExcept]

theorem bind {w : Work σ α} {f : α → Work σ β} (hw : FindsGroups w) (hf : ∀ a, FindsGroups (f a)) :
    FindsGroups (w >>= f) := by
  intro s
  have hs := hw s
  rcases hrun : w.perform s with ⟨e | a, t⟩ <;> rw [hrun] at hs
  · rw [perform_bind_error hrun]
    exact fun h => hs (congrArg Except.error (Except.error.inj h))
  · rw [perform_bind_ok hrun]
    exact hf a t

theorem each {f : β → Work σ Unit} : ∀ {bs : List β}, (∀ b ∈ bs, FindsGroups (f b)) → FindsGroups (Work.each f bs)
  | [], _ => .ofPure ()
  | _ :: _, hf => (hf _ List.mem_cons_self).bind fun _ => each fun c hc => hf c (List.mem_cons_of_mem _ hc)

theorem foldlM {f : α → β → Work σ α} (hf : ∀ a b, FindsGroups (f a b)) : ∀ (bs : List β) (a : α),
    FindsGroups (bs.foldlM f a)
  | [], a => .ofPure a
  | b :: bs, a => by
    rw [List.foldlM_cons]
    exact (hf a b).bind fun a => foldlM hf bs a

end FindsGroups

/-- Where one of a list stops, nothing is done for those behind it. -/
theorem each_append_stop {f : β → Work σ Unit} {b : β} {e : Fault} (hb : f b = stop e) (known later : List β) :
    each f (known ++ b :: later) = (do each f known; stop e) := by
  rw [each_append, each, hb]
  rfl

end Work

/-! ## Formulas and guards -/

namespace MAp

theorem findsGroups_operator? (t : Tree) : FindsGroups (operator? t) := by
  unfold FindsGroups operator?
  repeat' split
  all_goals simp

mutual
theorem findsGroups_formulaFrom : ∀ (skip opened : Nat) (ts : List Tree), FindsGroups (formulaFrom skip opened ts)
  | _, opened, [] => by
    rw [formulaFrom]
    exact .ok _
  | skip + 1, opened, _ :: ts => by
    rw [formulaFrom]
    exact findsGroups_formulaFrom skip opened ts
  | 0, opened, t :: ts => by
    rw [formulaFrom]
    have hop := findsGroups_operator? t
    split
    · rename_i e heq
      exact fun h => hop (heq.trans (congrArg Except.error (Except.error.inj h)))
    · exact (findsGroups_formulaFrom 0 opened ts).map _
    · have hbehind := findsGroups_behindOperator ts
      split
      · rename_i e heq
        exact fun h => hbehind (heq.trans (congrArg Except.error (Except.error.inj h)))
      · exact (findsGroups_formulaFrom _ (opened + 1) ts).map _
theorem findsGroups_behindOperator : ∀ ts : List Tree, FindsGroups (behindOperator ts)
  | [] => by simp [FindsGroups, behindOperator]
  | t :: _ => by
    rw [behindOperator]
    exact findsGroups_enclosed t
theorem findsGroups_enclosed : ∀ t : Tree, FindsGroups (enclosed t)
  | .word _ => by
    rw [enclosed]
    exact .ok _
  | .list inner => by
    rw [enclosed]
    exact (findsGroups_formulaFrom 0 0 inner).map _
end

theorem findsGroups_formula (t : Tree) : FindsGroups (formula t) := findsGroups_formulaFrom 0 0 t.items

theorem findsGroups_listed (sign : String) (more : Bool) : ∀ cs, (listed sign more cs).2 ≠ some .unknownGroup
  | [] => by simp [listed]
  | c :: cs => by
    have hc := findsGroups_formula c
    rw [listed]
    split
    · rename_i e heq
      exact fun h => hc (heq.trans (congrArg Except.error (Option.some.inj h)))
    · exact findsGroups_listed sign more cs

theorem findsGroups_conditions (positive first : Bool) (cs : List Tree) :
    FindsGroups (conditions positive first cs).outcome := by
  have hclear : ∀ cs, (clearBlanks cs).2 ≠ some .unknownGroup := by
    intro cs
    fun_induction clearBlanks cs <;> simp_all
  have htidy : (tidy cs).2 ≠ some .unknownGroup := by
    have hcs := hclear cs
    unfold tidy
    split
    · rename_i heq
      rwa [heq] at hcs
    · simp
  have hlisted : ∀ cs, (listedInOrder (signText positive) false cs).2 ≠ some .unknownGroup := by
    intro cs
    unfold listedInOrder beliefsFirst
    split
    · rename_i e heq
      split at heq
      · cases heq
        simp
      · cases heq
    · exact findsGroups_listed _ _ _
  unfold conditions
  split
  · rename_i e heq
    rw [heq] at htidy
    exact fun h => htidy (congrArg some (Except.error.inj h))
  · exact .ok _
  · simp only
    split
    · rename_i e heq
      exact fun h => hlisted _ ((congrArg Prod.snd heq).trans (congrArg some (Except.error.inj h)))
    · exact .ok _

theorem findsGroups_guard (g : Guard) : FindsGroups (guard g).outcome := by
  have hpositive := findsGroups_conditions true true g.positive
  unfold guard printBoth
  simp only
  split
  · rename_i e heq
    rwa [heq] at hpositive
  · exact (findsGroups_conditions _ _ _).map _

end MAp

theorem Guard.findsGroups_forAgent (agent : String) (g : Guard) : FindsGroups (g.forAgent agent) := by
  have hword : ∀ t, FindsGroups (fillWord agent t) := by
    intro t
    unfold FindsGroups fillWord
    split <;> simp
  have hat : ∀ condition place cs, FindsGroups (fillAt agent condition place cs) := by
    intro condition place cs
    unfold fillAt
    repeat' split
    all_goals first
      | exact .ok _
      | exact (hword _).map _
  have hconditions : ∀ cs, FindsGroups (fillConditions agent cs) := fun cs =>
    .foldlM (fun cs _ => .foldlM (fun cs _ => hat _ _ cs) _ cs) _ cs
  exact (hconditions _).bind fun _ => (hconditions _).bind fun _ => .ok _

/-! ## Statements about observers -/

namespace MAp

theorem findsGroups_printGuard (i : Nat) : (Sheet.printGuard guard i).FindsGroups := by
  intro sheet
  rw [Sheet.perform_printGuard]
  exact findsGroups_guard _

theorem findsGroups_quantifiedObserver (name verb : String) (e : Entry) (agent : Tree) :
    (quantifiedObserver name verb e agent).FindsGroups := by
  have hout : FindsGroups (leavesOut e agent) := by
    unfold FindsGroups leavesOut
    repeat' split
    all_goals simp
  have hname : (Sheet.nameOf agent).FindsGroups := by
    cases agent with
    | word w => exact .ofPure w
    | list ts => exact fun _ h => by cases h
  rw [quantifiedObserver_eq]
  refine (Work.FindsGroups.ofExcept hout).bind fun out => ?_
  cases out with
  | true => exact .ofPure ()
  | false =>
    refine hname.bind fun agent => (Work.FindsGroups.ofModify _).bind fun _ => ?_
    refine Work.FindsGroups.bind (fun _ => .ok _) fun g => ?_
    refine (Work.FindsGroups.ofExcept (Guard.findsGroups_forAgent agent g)).bind fun g => ?_
    refine Work.FindsGroups.bind (fun sheet => ?_) fun _ => .ofModify _
    rw [Sheet.perform_writePrinted]
    exact findsGroups_guard g

/-- **No statement about observers lacks a group.** -/
theorem findsGroups_observers {agents : Except Fault (List Tree)} (hagents : FindsGroups agents) (name verb : String)
    (es : List Entry) : (observers agents name verb es).FindsGroups := by
  refine .each fun e _ => .each fun ag _ => ?_
  unfold observer
  by_cases hag : isMarked ag = true
  · rw [if_pos hag]
    exact (Work.FindsGroups.ofExcept hagents).bind fun known =>
      .each fun agent _ => findsGroups_quantifiedObserver name verb e agent
  · rw [if_neg hag]
    exact (Work.FindsGroups.ofModify _).bind fun _ => (findsGroups_printGuard e.guard).bind fun _ => .ofModify _

end MAp
/-! ## Filling in -/

namespace Assignment

variable {σ : Assignment}

theorem findsGroups_firstObject : FindsGroups σ.firstObject := by
  unfold FindsGroups firstObject
  split <;> simp

theorem findsGroups_exchange (old new : Tree) (items : List Tree) : FindsGroups (exchange old new items) := by
  unfold FindsGroups exchange
  split <;> simp

theorem findsGroups_forEachAgent {f : String → List Tree → Except Fault (List Tree)}
    (hf : ∀ agent items, FindsGroups (f agent items)) (w : String) (items : List Tree) :
    FindsGroups (σ.forEachAgent w f items) := by
  refine .foldlM (fun items agent => .foldlM (fun items v => ?_) _ items) _ items
  split
  · exact hf agent items
  · exact .ok _

theorem findsGroups_fillOperator {τ : Type} {inner : Tree → Work τ Tree} (hinner : ∀ t, (inner t).FindsGroups)
    (items : List Tree) (place : Nat) : (σ.fillOperator inner items place).FindsGroups := by
  have hbehind : ∀ items, (fillBehind inner place items).FindsGroups := by
    intro items
    unfold fillBehind
    split
    · exact fun _ h => by cases h
    · exact .ofPure _
    · exact (hinner _).bind fun _ => .ofPure _
  have hbelief : ∀ w items, FindsGroups (σ.fillBelief w items) := by
    intro w items
    refine .foldlM (fun items v => ?_) _ items
    split
    · exact findsGroups_firstObject.bind fun _ => findsGroups_exchange _ _ _
    · exact .ok _
  have hcommon : ∀ w agent items, FindsGroups (σ.fillCommonBelief w agent items) := by
    intro w agent items
    unfold fillCommonBelief
    split
    · exact findsGroups_firstObject.bind fun _ => findsGroups_exchange _ _ _
    · exact fun h => by cases h
  unfold fillOperator
  split
  · exact .ofPure _
  split
  · split
    · exact fun _ h => by cases h
    · exact (Work.FindsGroups.ofExcept (hbelief _ _)).bind hbehind
  split
  · split
    · exact fun _ h => by cases h
    · exact (Work.FindsGroups.ofExcept (findsGroups_forEachAgent (hcommon _) _ _)).bind hbehind
  · exact .ofPure _

theorem findsGroups_collapseOperator (items : List Tree) (place : Nat) :
    FindsGroups (σ.collapseOperator items place) := by
  have hcollapse : ∀ w items, FindsGroups (σ.collapseCommonBelief w items) := fun w items =>
    findsGroups_firstObject.bind fun _ => findsGroups_exchange _ _ _
  unfold collapseOperator
  split
  · exact .ok _
  split
  · split
    · exact fun h => by cases h
    · exact findsGroups_forEachAgent (fun _ => hcollapse _) _ _
  · exact .ok _

theorem findsGroups_fillItems : ∀ vars objects items : List Tree, FindsGroups (fillItems vars objects items)
  | [], _, _ => .ok _
  | v :: vars, objects, items => by
    unfold fillItems
    split
    · split
      · exact fun h => by cases h
      · split
        · exact fun h => by cases h
        · exact findsGroups_fillItems vars _ _
    · exact findsGroups_fillItems vars _ items

end Assignment

section
variable {σ : Assignment} (recorded : Bool)

theorem findsGroups_substituteWithin : ∀ (fuel : Nat) (t : Tree), (substituteWithin σ recorded fuel t).FindsGroups
  | 0, t => .ofPure t
  | fuel + 1, t => by
    have hrecord : ∀ items, (recordFluent items).FindsGroups := by
      intro items
      refine (Work.FindsGroups.ofExcept (MAp.findsGroups_formula _)).bind fun text => ?_
      split
      · exact .ofModify _
      · exact .ofPure _
    unfold substituteWithin
    refine (Work.FindsGroups.foldlM (fun items k => Assignment.findsGroups_fillOperator
      (findsGroups_substituteWithin fuel) items k) _ _).bind fun items => ?_
    refine (Work.FindsGroups.ofExcept
      (.foldlM (fun items k => Assignment.findsGroups_collapseOperator items k) _ _)).bind fun items => ?_
    refine (Work.FindsGroups.ofExcept (Assignment.findsGroups_fillItems _ _ _)).bind fun items => ?_
    split
    · exact (hrecord items).bind fun _ => .ofPure _
    · exact .ofPure _

theorem findsGroups_substituteEach : ∀ ts : List Tree, (substituteEach σ recorded ts).FindsGroups
  | [] => .ofPure _
  | t :: ts => (findsGroups_substituteWithin recorded _ t).bind fun _ => (findsGroups_substituteEach ts).bind fun _ =>
      .ofPure _

theorem findsGroups_substituteClauses : ∀ cs : List Clause, (substituteClauses σ recorded cs).FindsGroups
  | [] => .ofPure _
  | c :: cs => by
    have hpart : ∀ i, (substituteClause.part c.tree i).FindsGroups := by
      intro i
      refine .ofExcept ?_
      cases c.tree.item? i with
      | none => exact fun h => by cases h
      | some t => exact .ok t
    have hclause : (substituteClause σ recorded c.tree).FindsGroups :=
      (hpart 0).bind fun _ => (findsGroups_substituteWithin recorded _ _).bind fun _ =>
      (hpart 1).bind fun _ => (findsGroups_substituteEach recorded _).bind fun _ =>
      (hpart 2).bind fun _ => (findsGroups_substituteEach recorded _).bind fun _ =>
      (hpart 3).bind fun _ => (findsGroups_substituteEach recorded _).bind fun _ => .ofPure _
    exact hclause.bind fun _ => (findsGroups_substituteClauses cs).bind fun _ => .ofPure _

end

/-! ## Ranges of variables -/

section
variable {objects types : Hierarchy}

mutual
theorem findsGroups_instancesWithin : ∀ (fuel : Nat) (t : Tree), FindsGroups (instancesWithin objects types fuel t)
  | _, .list _ => by
    unfold instancesWithin
    exact fun h => by cases h
  | fuel, .word type => by
    unfold instancesWithin
    split
    · exact .ok _
    split
    · exact fun h => by cases h
    · cases fuel with
      | zero => exact fun h => by cases h
      | succ fuel => exact findsGroups_instancesOfEach fuel _
theorem findsGroups_instancesOfEach : ∀ (fuel : Nat) (ts : List Tree),
    FindsGroups (instancesOfEach objects types fuel ts)
  | _, [] => by
    unfold instancesOfEach
    exact .ok _
  | fuel, t :: ts => by
    unfold instancesOfEach
    exact (findsGroups_instancesWithin fuel t).bind fun _ => (findsGroups_instancesOfEach fuel ts).bind fun _ => .ok _
end

theorem Ranges.findsGroups_read : ∀ ps : List Tree, FindsGroups (Ranges.read objects types ps)
  | [] => .ok _
  | p :: ps => by
    unfold Ranges.read
    split
    · exact (findsGroups_instancesWithin _ _).bind fun _ => (findsGroups_read ps).bind fun _ => .ok _
    · exact fun h => by cases h

end

/-! ## Actions with entries for groups -/

namespace Action

/-- The action has an entry for each of the groups. -/
def Covers (a : Action) (groups : List Tree) : Prop :=
  ∃ members, a.observers = .groups members ∧ ∀ g ∈ groups, ∃ es, groupEntries members g = .ok es

theorem groupEntries_eq_ok {members : Catalog (List Entry)} {g : Tree} :
    (∃ es, groupEntries members g = .ok es) ↔ ∃ n ∈ members.keys, g = .word n := by
  cases g with
  | list ts => simp [groupEntries]
  | word n =>
    rw [groupEntries]
    cases hget : members.get? n with
    | none =>
      have hn : n ∉ members.keys := fun hmem => by simp [Catalog.mem_keys_iff, Catalog.has, hget] at hmem
      simp [hn]
    | some es =>
      have hn : n ∈ members.keys := by simp [Catalog.mem_keys_iff, Catalog.has, hget]
      simp [hn]

end Action

theorem Observers.keys_addGroups : ∀ (members : Catalog (List Clause)) (guards : List Guard),
    (addGroups guards members).2.keys = members.keys
  | [], _ => rfl
  | (g, cs) :: rest, guards => by
    have hrest := keys_addGroups rest (addClauses guards cs).1
    simp only [Catalog.keys, addGroups, List.map_cons] at hrest ⊢
    rw [hrest]

/-- Groups that were ground have entries. -/
theorem Grounding.keys_groundGroups {σ : Assignment} {a : Action} {members : Catalog (List Entry)} : ∀ {gs : List Tree}
    {done found : Catalog (List Clause)} {l l' : Fluents},
    (groundGroups σ a members gs done).perform l = (.ok found, l') →
      (∀ n ∈ done.keys, n ∈ found.keys) ∧ ∀ g ∈ gs, ∃ n ∈ found.keys, g = .word n
  | [], done, found, l, l', h => by
    cases h
    exact ⟨fun _ hn => hn, by simp⟩
  | g :: gs, done, found, l, l', h => by
    obtain ⟨⟨name, cs⟩, _, hgroup, h⟩ := perform_bind_eq_ok.1 h
    obtain ⟨es, hes, hgroup⟩ := Work.perform_ofExcept_bind_eq_ok.1 hgroup
    obtain ⟨cs, _, _, hgroup⟩ := perform_bind_eq_ok.1 hgroup
    cases hgroup
    obtain ⟨n, -, rfl⟩ := Action.groupEntries_eq_ok.1 ⟨es, hes⟩
    obtain ⟨hkept, hgs⟩ := keys_groundGroups h
    have hnew : n ∈ found.keys :=
      hkept n (by rw [Catalog.mem_keys_iff, Catalog.has, Catalog.get?_insert]; simp [Tree.shown])
    refine ⟨fun k hk => hkept k ?_, List.forall_mem_cons.2 ⟨⟨n, hnew, rfl⟩, hgs⟩⟩
    rw [Catalog.keys_insert]
    split
    · exact hk
    · exact List.mem_append_left _ hk

namespace Action

section
variable {a : Action} {groups : List Tree} (ha : a.Covers groups)
include ha

/-- **The observers of an action that covers the groups are told without missing one.** -/
theorem Covers.findsGroups_groupObservers {agents : Except Fault (List Tree)} (hagents : FindsGroups agents) :
    (MAp.groupObservers agents groups a).FindsGroups := by
  obtain ⟨members, ho, hentries⟩ := ha
  rw [MAp.groupObservers, ho]
  refine .each fun g hg => ?_
  obtain ⟨es, hes⟩ := hentries g hg
  rw [hes]
  have hname : (Sheet.nameOf g).FindsGroups := by
    cases g with
    | word n => exact .ofPure n
    | list ts => cases hes
  exact hname.bind fun name => (Work.FindsGroups.ofExcept (.ok es)).bind fun es =>
    MAp.findsGroups_observers hagents _ _ es

theorem Covers.findsGroups_groundWith (σ : Assignment) : (a.groundWith groups σ).FindsGroups := by
  have hobservers : (Grounding.groundObservers groups σ a).FindsGroups := by
    obtain ⟨members, ho, hentries⟩ := ha
    have hgroups : ∀ (gs : List Tree) (done : Catalog (List Clause)),
        (∀ g ∈ gs, ∃ es, groupEntries members g = .ok es) →
        (Grounding.groundGroups σ a members gs done).FindsGroups := by
      intro gs
      induction gs with
      | nil => exact fun done _ => .ofPure done
      | cons g gs ih =>
        intro done h
        obtain ⟨⟨es, hes⟩, hgs⟩ := List.forall_mem_cons.1 h
        have hgroup : (Grounding.groundGroup σ a members g).FindsGroups := by
          rw [Grounding.groundGroup, hes]
          exact (Work.FindsGroups.ofExcept (.ok es)).bind fun es =>
            (findsGroups_substituteClauses false _).bind fun _ => .ofPure _
        exact hgroup.bind fun _ => ih _ hgs
    rw [Grounding.groundObservers, ho]
    exact (hgroups groups [] hentries).bind fun _ => .ofPure _
  exact (findsGroups_substituteEach true _).bind fun _ => (findsGroups_substituteEach true _).bind fun _ =>
    (findsGroups_substituteClauses true _).bind fun _ => (findsGroups_substituteClauses true _).bind fun _ =>
    hobservers.bind fun _ => .ofPure _

/-- **Grounding an action that covers the groups misses none of them.** -/
theorem Covers.findsGroups_ground {finish : Action → Except Fault Action} (hfinish : ∀ b, FindsGroups (finish b))
    (objects types : Hierarchy) (distinct : Bool) (place : Nat) :
    (a.ground finish objects types distinct groups place).FindsGroups := by
  have hkeeps : ∀ choice, FindsGroups (keepsChoice distinct choice) := by
    intro choice
    unfold FindsGroups keepsChoice
    repeat' split
    all_goals simp
  unfold ground
  split
  · exact (Work.FindsGroups.ofExcept (hfinish a)).bind fun _ => .ofModify _
  · refine (Work.FindsGroups.ofExcept (Ranges.findsGroups_read _)).bind fun ranges => .each fun choice _ => ?_
    refine (Work.FindsGroups.ofExcept (hkeeps choice)).bind fun kept => ?_
    cases kept with
    | false => exact .ofPure ()
    | true =>
      refine Work.FindsGroups.bind (fun g => ?_) fun ground =>
        (Work.FindsGroups.ofExcept (hfinish ground)).bind fun _ =>
        .ofModify _
      rw [Grounding.perform_recording]
      exact ha.findsGroups_groundWith _ g.fluents

theorem Covers.of_groundWith {ground : Action} {σ : Assignment} {l l' : Fluents}
    (h : (a.groundWith groups σ).perform l = (.ok ground, l')) : ground.Covers groups := by
  obtain ⟨members, ho, -⟩ := ha
  obtain ⟨_, _, _, h⟩ := perform_bind_eq_ok.1 h
  obtain ⟨_, _, _, h⟩ := perform_bind_eq_ok.1 h
  obtain ⟨_, _, _, h⟩ := perform_bind_eq_ok.1 h
  obtain ⟨_, _, _, h⟩ := perform_bind_eq_ok.1 h
  obtain ⟨observers, _, hobservers, h⟩ := perform_bind_eq_ok.1 h
  unfold Grounding.groundObservers at hobservers
  rw [ho] at hobservers
  obtain ⟨found, _, hfound, hobservers⟩ := perform_bind_eq_ok.1 hobservers
  cases hobservers
  cases h
  refine ⟨_, rfl, fun g hg => groupEntries_eq_ok.2 ?_⟩
  rw [Observers.keys_addGroups]
  exact (Grounding.keys_groundGroups hfound).2 g hg

/-- **A ground action covers the groups that its action covers.** -/
theorem Yields.covers {finish : Action → Except Fault Action} (hfinish : LeavesObservers finish)
    {objects types : Hierarchy} {known : Fluents} {G : GroundAction}
    (h : a.Yields finish objects types groups known G) : G.action.Covers groups := by
  have hdone : ∀ {b done : Action}, finish b = .ok done → b.Covers groups → done.Covers groups := by
    rintro b done h ⟨members, ho, hentries⟩
    exact ⟨members, (hfinish.observers h).trans ho, hentries⟩
  cases h with
  | itself place hparameters hok => exact hdone hok ha
  | filled hparameters hranges hchoice hground hknown hok => exact hdone hok (ha.of_groundWith hground)

end
/-! ## Groups without an entry -/

/-- What stops where a group has no entry. -/
def missingGroup : Tree → Fault
  | .word _ => .unknownGroup
  | .list _ => .listForName

theorem groupEntries_eq_missing {members : Catalog (List Entry)} {g : Tree} (h : ∀ n ∈ members.keys, g ≠ .word n) :
    groupEntries members g = .error (missingGroup g) := by
  cases g with
  | list ts => rfl
  | word n => rw [groupEntries, Catalog.get?_of_not_mem fun hn => h n hn rfl, missingGroup]

section
variable {a : Action} {members : Catalog (List Entry)} (ho : a.observers = .groups members) {g : Tree}
  (hg : ∀ n ∈ members.keys, g ≠ .word n) (known later : List Tree)
include ho hg

/-- **The observers are told up to a group without an entry.** -/
theorem groupObservers_eq_stop (agents : Except Fault (List Tree)) :
    MAp.groupObservers agents (known ++ g :: later) a =
      (do MAp.groupObservers agents known a; Work.stop (missingGroup g)) := by
  simp only [MAp.groupObservers, ho]
  refine Work.each_append_stop ?_ known later
  rw [groupEntries_eq_missing hg]
  cases g <;> rfl

/-- **Observers are filled in up to a group without an entry.** -/
theorem groundWith_eq_stop (σ : Assignment) :
    a.groundWith (known ++ g :: later) σ = (do let _ ← a.groundWith known σ; Work.stop (missingGroup g)) := by
  have hgroups : ∀ (known : List Tree) (done : Catalog (List Clause)),
      Grounding.groundGroups σ a members (known ++ g :: later) done =
        (do let _ ← Grounding.groundGroups σ a members known done; Work.stop (missingGroup g)) := by
    intro known
    induction known with
    | nil =>
      intro done
      rw [List.nil_append, Grounding.groundGroups, Grounding.groundGroups, pure_bind, Grounding.groundGroup,
        groupEntries_eq_missing hg]
      rfl
    | cons k known ih =>
      intro done
      simp only [List.cons_append, Grounding.groundGroups, ih, bind_assoc]
  simp only [groundWith, Grounding.groundObservers, ho, hgroups, bind_assoc, pure_bind]
  rfl

end
end Action

end Epistemic
