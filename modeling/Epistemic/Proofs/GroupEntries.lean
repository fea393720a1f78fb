import Epistemic.Proofs.Documents
import Epistemic.Proofs.GroupLookup
import Epistemic.Proofs.Parsed
/-!
# Entries for the groups of a domain

An action has an entry for each group that is declared before it, and for no other (`Action.HasEntries`).  So all
actions of a domain have entries for all groups exactly if no group is declared behind an action, and only then
grounding and printing never miss a group (`Session.group_entries_complete_iff`).
-/
namespace Epistemic

/-! ## Reading an action -/

namespace Action

/-- The action has an entry for each of the groups, in order, and no other. -/
def HasEntries (a : Action) (groups : List Tree) : Prop :=
  ∃ members, a.observers = .groups members ∧ groups = members.keys.map .word

variable {a b : Action} {groups : List Tree}

theorem HasEntries.addToGroup {group : String} {t : Tree} (h : a.HasEntries groups) (hgroup : .word group ∈ groups)
    (hadd : a.addToGroup group t = .ok b) : b.HasEntries groups := by
  obtain ⟨members, ho, hkeys⟩ := h
  have hmem : group ∈ members.keys := by
    rw [hkeys, List.mem_map] at hgroup
    obtain ⟨n, hn, heq⟩ := hgroup
    rwa [← Tree.word.inj heq]
  unfold Action.addToGroup at hadd
  rw [ho] at hadd
  simp only at hadd
  cases hread : a.addObservers ((members.get? group).getD []) t with
  | error e =>
    rw [hread] at hadd
    cases hadd
  | ok found =>
    rw [hread] at hadd
    cases hadd
    exact ⟨_, rfl, by rw [Catalog.keys_insert, if_pos hmem, hkeys]⟩

/-- **No field but that of a group changes the entries for groups.** -/
theorem setField_observers {members : Catalog (List Entry)} (ho : a.observers = .groups members) {value : Tree}
    {field : ActionField} (h : a.setField value field = .ok b) : b.observers = .groups members := by
  cases field with
  | parameters =>
    simp only [setField] at h
    unfold readParameters at h
    split at h
    · split at h
      · cases h
        exact ho
      · cases h
    · simp only at h
      split at h
      · cases h
      · cases h
        exact ho
  | kind =>
    simp only [setField] at h
    cases hkind : ActionKind.read value with
    | error e =>
      rw [hkind] at h
      cases h
    | ok kind =>
      rw [hkind] at h
      cases h
      exact ho
  | precondition =>
    simp only [setField, readPrecondition] at h
    split at h
    · cases h
    · cases h
      exact ho
  | effect =>
    simp only [setField, addEffect] at h
    split at h
    · cases h
    · cases h
      exact ho
  | observers =>
    simp only [setField, addFullObservers, ho] at h
    cases h
    exact ho
  | observersInPart =>
    simp only [setField, addObserversInPart, ho] at h
    cases h
    exact ho
  | derivation | explicitEffect =>
    cases h
    exact ho

theorem HasEntries.declareFields {ts : List Tree} {report : String} (h : a.HasEntries groups)
    (hread : (declareFields .groups groups ts report a).outcome = .ok b) : b.HasEntries groups := by
  fun_induction Action.declareFields .groups groups ts report a with
  | case1 =>
    cases hread
    exact h
  | case2 t ts report a _ ih => exact ih h hread
  | case7 t report a field _ value _ group _ hgroup value' ts a' hadd ih =>
    exact ih (h.addToGroup (by simpa using hgroup) hadd) hread
  | case10 t report a field _ value ts _ a' hset ih =>
    obtain ⟨members, ho, hkeys⟩ := h
    exact ih ⟨members, setField_observers ho hset, hkeys⟩ hread
  | case3 | case4 | case5 | case6 | case8 | case9 => cases hread

/-- **A new action has an entry for each group that is declared so far.** -/
theorem hasEntries_noObservers {o : Observers Entry} (hnodup : groups.Nodup) (h : noObservers .groups groups = .ok o) :
    ∃ members, o = .groups members ∧ groups = members.keys.map .word := by
  simp only [noObservers] at h
  split at h
  · cases h
  · rename_i hwords
    cases h
    have hfold : ∀ (gs : List Tree) (c : Catalog (List Entry)), (∀ g ∈ gs, g.isList = false) →
        (c.keys.map Tree.word ++ gs).Nodup →
        (gs.foldl (fun c g => c.insert g.shown []) c).keys.map Tree.word = c.keys.map Tree.word ++ gs := by
      intro gs
      induction gs with
      | nil => exact fun c _ _ => (List.append_nil _).symm
      | cons g gs ih =>
        intro c hgs hnodup
        obtain ⟨hg, hrest⟩ := List.forall_mem_cons.1 hgs
        cases g with
        | list ts => cases hg
        | word n =>
          have hn : n ∉ c.keys := by
            intro hmem
            have hdisjoint := (List.nodup_append.1 hnodup).2.2 (.word n) (List.mem_map_of_mem hmem) (.word n)
            exact hdisjoint List.mem_cons_self rfl
          have hkeys : (c.insert n []).keys.map Tree.word = c.keys.map Tree.word ++ [.word n] := by
            rw [Catalog.keys_insert, if_neg hn, List.map_append]
            rfl
          rw [List.foldl_cons, Tree.shown, ih _ hrest (by rw [hkeys]; simpa using hnodup), hkeys, List.append_assoc]
          rfl
    refine ⟨_, rfl, ?_⟩
    have hall : ∀ g ∈ groups, g.isList = false := by simpa using hwords
    rw [hfold groups [] hall hnodup]
    rfl

theorem hasEntries_declare {known : List String} {ts : List Tree} (hnodup : groups.Nodup)
    (hread : (declare .groups known groups ts).outcome = .ok a) : a.HasEntries groups := by
  unfold declare at hread
  split at hread
  · cases hread
  · cases hread
  · split at hread
    · cases hread
    · split at hread
      · cases hread
      · rename_i o ho
        exact HasEntries.declareFields (hasEntries_noObservers hnodup ho) hread

/-- An action with entries for some groups covers more groups exactly if there are no more. -/
theorem HasEntries.covers_iff {later : List Tree} (h : a.HasEntries groups) (hnodup : (groups ++ later).Nodup) :
    a.Covers (groups ++ later) ↔ later = [] := by
  obtain ⟨members, ho, rfl⟩ := h
  constructor
  · rintro ⟨members', ho', hentries⟩
    rw [ho] at ho'
    cases ho'
    cases later with
    | nil => rfl
    | cons g later =>
      obtain ⟨n, hn, rfl⟩ := groupEntries_eq_ok.1 (hentries g (by simp))
      have hdisjoint := (List.nodup_append.1 hnodup).2.2 (.word n) (List.mem_map_of_mem hn) (.word n)
      exact absurd rfl (hdisjoint List.mem_cons_self)
  · rintro rfl
    refine ⟨members, ho, fun g hg => groupEntries_eq_ok.2 ?_⟩
    rw [List.append_nil] at hg
    obtain ⟨n, hn, rfl⟩ := List.mem_map.1 hg
    exact ⟨n, hn, rfl⟩

end Action

/-! ## Reading a domain -/

/-- The groups that a section declares. -/
def Tree.sectionGroups : Tree → List Tree
  | .list (keyword :: ts) => if keyword.isWord ":obs_groups" then ts.filterMap (·.items.head?) else []
  | _ => []

/-- Whether a section declares an action. -/
def Tree.isActionSection : Tree → Bool
  | .list (keyword :: _) => keyword.isWord ":action"
  | _ => false

/-- The groups that sections declare. -/
def declaredGroups (parts : List Tree) : List Tree := parts.flatMap Tree.sectionGroups

/-- For each action, the groups that are declared before it. -/
def groupsAtActions : (known : List Tree) → List Tree → List (List Tree)
  | _, [] => []
  | known, t :: ts =>
    if t.isActionSection then known :: groupsAtActions known ts else groupsAtActions (known ++ t.sectionGroups) ts

theorem Tree.sectionGroups_of_isActionSection {t : Tree} (h : t.isActionSection = true) : t.sectionGroups = [] := by
  unfold isActionSection at h
  split at h
  · rename_i keyword ts
    rw [Tree.isWord, beq_iff_eq] at h
    subst h
    rfl
  · cases h

theorem mem_groupsAtActions {gs : List Tree} : ∀ {parts known : List Tree}, gs ∈ groupsAtActions known parts ↔
    ∃ before t after, parts = before ++ t :: after ∧ t.isActionSection = true ∧ gs = known ++ declaredGroups before
  | [], known => by simp [groupsAtActions]
  | u :: parts, known => by
    have hrest : (∃ before t after, u :: parts = before ++ t :: after ∧ t.isActionSection = true ∧
        gs = known ++ declaredGroups before) ↔ (u.isActionSection = true ∧ gs = known) ∨
        gs ∈ groupsAtActions (known ++ u.sectionGroups) parts := by
      rw [mem_groupsAtActions]
      constructor
      · rintro ⟨before, t, after, hparts, ht, rfl⟩
        cases before with
        | nil =>
          obtain ⟨rfl, rfl⟩ := List.cons.inj hparts
          exact .inl ⟨ht, List.append_nil _⟩
        | cons v before =>
          obtain ⟨rfl, rfl⟩ := List.cons.inj hparts
          exact .inr ⟨before, t, after, rfl, ht, (List.append_assoc _ _ _).symm⟩
      · rintro (⟨hu, rfl⟩ | ⟨before, t, after, rfl, ht, rfl⟩)
        · exact ⟨[], u, parts, rfl, hu, (List.append_nil _).symm⟩
        · exact ⟨u :: before, t, after, rfl, ht, List.append_assoc _ _ _⟩
    rw [hrest, groupsAtActions]
    by_cases hu : u.isActionSection = true
    · rw [if_pos hu, List.mem_cons, Tree.sectionGroups_of_isActionSection hu, List.append_nil]
      simp [hu]
    · rw [if_neg hu]
      simp [hu]

theorem declareGroups_ok : ∀ {ts groups : List Tree}, groups.Nodup → (declareGroups ts groups).fault = none →
    (declareGroups ts groups).groups = groups ++ ts.filterMap (·.items.head?) ∧ (declareGroups ts groups).groups.Nodup
  | [], groups, hnodup, _ => ⟨(List.append_nil _).symm, hnodup⟩
  | .word _ :: _, _, _, h => by cases h
  | .list [] :: _, _, _, h => by cases h
  | .list (name :: _) :: ts, groups, hnodup, h => by
    unfold declareGroups at h ⊢
    by_cases hmem : groups.contains name = true
    · rw [if_pos hmem] at h
      cases name <;> cases h
    · rw [if_neg hmem] at h ⊢
      have hnew : (groups ++ [name]).Nodup := by
        rw [List.nodup_append]
        refine ⟨hnodup, by simp, fun g hg g' hg' heq => hmem ?_⟩
        rw [← List.mem_singleton.1 hg', ← heq]
        simpa using hg
      obtain ⟨hgroups, hdone⟩ := declareGroups_ok hnew h
      exact ⟨by rw [hgroups, List.append_assoc]; rfl, hdone⟩

namespace Domain

/-- What a section does to the groups and the actions of a domain: the groups that it declares come behind the others,
and an action that it declares has entries for the groups before it. -/
structure Declares (d : Domain) (t : Tree) (done : Domain) : Prop where
  groups : done.groups = d.groups ++ t.sectionGroups
  nodup : done.groups.Nodup
  actions : ∃ new, done.actions = d.actions ++ new ∧
    if t.isActionSection then ∃ a, new = [a] ∧ a.HasEntries d.groups else new = []

section
variable {d : Domain} (hnodup : d.groups.Nodup)
include hnodup

theorem declares_other {t : Tree} (hgroups : t.sectionGroups = []) (haction : t.isActionSection = false) {done : Domain}
    (hsame : done.groups = d.groups) (hactions : done.actions = d.actions) : d.Declares t done where
  groups := by rw [hsame, hgroups, List.append_nil]
  nodup := hsame ▸ hnodup
  actions := ⟨[], by rw [hactions, List.append_nil], by rw [haction]; exact rfl⟩

theorem declares_readAction {ts : List Tree} (h : (d.readAction .groups ts).fault = none) :
    d.Declares (.list (.word ":action" :: ts)) (d.readAction .groups ts).domain := by
  unfold readAction at h ⊢
  simp only at h ⊢
  cases hread : (Action.declare .groups (d.actions.map Action.name) d.groups ts).outcome with
  | error e =>
    rw [hread] at h
    cases h
  | ok a =>
    exact ⟨(List.append_nil _).symm, hnodup, [a], rfl, a, rfl, Action.hasEntries_declare hnodup hread⟩

theorem declares_readGroups {ts : List Tree} (h : (d.readGroups ts).fault = none) :
    d.Declares (.list (.word ":obs_groups" :: ts)) (d.readGroups ts).domain := by
  obtain ⟨hgroups, hdone⟩ := declareGroups_ok hnodup h
  exact ⟨hgroups, hdone, [], (List.append_nil _).symm, rfl⟩

theorem declares_readSection {t : Tree} (h : (d.readSection .groups t).fault = none) :
    d.Declares t (d.readSection .groups t).domain := by
  unfold readSection at h ⊢
  split at h
  · cases h
  · cases h
  · rename_i keyword ts
    by_cases hgroups : keyword = .word ":obs_groups"
    · subst hgroups
      exact declares_readGroups hnodup h
    by_cases haction : keyword = .word ":action"
    · subst haction
      exact declares_readAction hnodup h
    · -- no other section touches groups or actions
      have hother : ∀ {done : Domain}, done.groups = d.groups → done.actions = d.actions →
          d.Declares (.list (keyword :: ts)) done :=
        declares_other hnodup (by simp [Tree.sectionGroups, Tree.isWord, hgroups])
          (by simp [Tree.isActionSection, Tree.isWord, haction])
      unfold readBehind
      split
      · cases ts <;> exact hother rfl rfl
      split
      · unfold readRequirements
        split <;> exact hother rfl rfl
      split
      · exact hother rfl rfl
      split
      · exact hother rfl rfl
      split
      · exact hother rfl rfl
      split
      · rename_i hkeyword
        exact absurd (beq_iff_eq.1 hkeyword) haction
      split
      · rename_i hkeyword
        rw [Bool.and_eq_true] at hkeyword
        exact absurd (beq_iff_eq.1 hkeyword.1) hgroups
      · exact hother rfl rfl

end

/-- **What sections do to groups and actions.** -/
theorem readSections_groups : ∀ {parts : List Tree} {d : Domain}, d.groups.Nodup →
    (d.readSections .groups parts).fault = none →
    (d.readSections .groups parts).domain.groups = d.groups ++ declaredGroups parts ∧
    (d.readSections .groups parts).domain.groups.Nodup ∧
    ∃ new, (d.readSections .groups parts).domain.actions = d.actions ++ new ∧
      List.Forall₂ (fun gs a => a.HasEntries gs) (groupsAtActions d.groups parts) new
  | [], d, hnodup, _ => ⟨(List.append_nil _).symm, hnodup, [], (List.append_nil _).symm, .nil⟩
  | t :: parts, d, hnodup, h => by
    unfold readSections at h ⊢
    simp only at h ⊢
    cases hfault : (d.readSection .groups t).fault with
    | some e =>
      rw [hfault] at h
      simp only [hfault] at h
      cases h
    | none =>
      rw [hfault] at h
      simp only at h ⊢
      obtain ⟨hgroups, hstep, new, hactions, hnew⟩ := declares_readSection hnodup hfault
      obtain ⟨hall, hdone, more, hmore, hentries⟩ := readSections_groups hstep h
      refine ⟨?_, hdone, new ++ more, by rw [hmore, hactions, List.append_assoc], ?_⟩
      · rw [hall, hgroups, List.append_assoc]
        rfl
      · rw [hgroups] at hentries
        unfold groupsAtActions
        by_cases haction : t.isActionSection = true
        · rw [if_pos haction] at hnew ⊢
          obtain ⟨a, rfl, ha⟩ := hnew
          rw [Tree.sectionGroups_of_isActionSection haction, List.append_nil] at hentries
          exact .cons ha hentries
        · rw [if_neg haction] at hnew ⊢
          rw [hnew]
          exact hentries

end Domain

/-! ## Sessions -/

theorem findsGroups_finish {finish : Action → Except Fault Action}
    (hfinish : finish = .ok ∨ finish = Action.underGroundName) (b : Action) : FindsGroups (finish b) := by
  rcases hfinish with rfl | rfl
  · exact .ok b
  · refine FindsGroups.map _ (.foldlM (fun name p => ?_) _ _)
    cases p with
    | word o => exact .ok _
    | list ts => exact fun h => by cases h

/-- Grounding an action and telling the observers of its ground actions never misses a group. -/
def Action.NeverMisses (groups : List Tree) (a : Action) : Prop :=
  ∀ finish, finish = .ok ∨ finish = Action.underGroundName → ∀ objects types distinct place known,
    ((a.ground finish objects types distinct groups place).perform { fluents := known }).1 ≠ .error .unknownGroup ∧
    ∀ G ∈ ((a.ground finish objects types distinct groups place).perform { fluents := known }).2.actions,
      ∀ agents, agents ≠ .error .unknownGroup → ∀ sheet,
        ((MAp.groupObservers agents groups G.action).perform sheet).1 ≠ .error .unknownGroup

theorem Action.Covers.neverMisses {a : Action} {groups : List Tree} (ha : a.Covers groups) : a.NeverMisses groups := by
  intro finish hfinish objects types distinct place known
  constructor
  · exact ha.findsGroups_ground (findsGroups_finish hfinish) objects types distinct place { fluents := known }
  · intro G hG agents hagents sheet
    obtain ⟨b, hb, hyields⟩ := keeps_ground (List.mem_singleton_self a) place { fluents := known }
      (by simp [Grounding.From]) G hG
    obtain rfl := List.mem_singleton.1 hb
    have hcovers := Action.Yields.covers ha (leavesObservers_finish hfinish) hyields
    exact hcovers.findsGroups_groupObservers hagents sheet

/-- Grounding an action and telling its observers stops at a group that has no entry. -/
def Action.StopsAtGroup (groups : List Tree) (a : Action) : Prop :=
  ∃ known g later, groups = known ++ g :: later ∧ a.Covers known ∧
    (∀ σ, a.groundWith groups σ = (do let _ ← a.groundWith known σ; Work.stop (missingGroup g))) ∧
    ∀ agents, MAp.groupObservers agents groups a =
      (do MAp.groupObservers agents known a; Work.stop (missingGroup g))

theorem Action.HasEntries.stopsAtGroup {a : Action} {known later : List Tree} {g : Tree} (ha : a.HasEntries known)
    (hnodup : (known ++ g :: later).Nodup) : a.StopsAtGroup (known ++ g :: later) := by
  have hcovers : a.Covers known := by
    have hiff : a.Covers (known ++ []) ↔ _ := ha.covers_iff (by
      rw [List.append_nil]
      exact (List.nodup_append.1 hnodup).1)
    rw [List.append_nil] at hiff
    exact hiff.2 rfl
  obtain ⟨members, ho, rfl⟩ := ha
  have hg : ∀ n ∈ members.keys, g ≠ .word n := by
    rintro n hn rfl
    exact (List.nodup_append.1 hnodup).2.2 (.word n) (List.mem_map_of_mem hn) (.word n) List.mem_cons_self rfl
  exact ⟨_, g, later, rfl, hcovers, Action.groundWith_eq_stop ho hg _ later,
    Action.groupObservers_eq_stop ho hg _ later⟩

namespace Session

/-- **What is read of a domain that is accepted.** -/
theorem readDomain_ok {file text : String} {s₀ s : Session}
    (h : (readDomain file (some text)).perform s₀ = (.ok (), s)) :
    ∃ parts, Source.scan s₀.task.dialect text = .ok (.list (.word "define" :: parts)) ∧
      (({} : Domain).readSections s₀.task.dialect parts).fault = none ∧
      s.task.domain = some (({} : Domain).readSections s₀.task.dialect parts).domain := by
  unfold readDomain at h
  obtain ⟨found, s₁, hscan, hrest⟩ := Work.perform_bind_eq_ok.1 h
  obtain ⟨parts, hparts, hread⟩ := Work.perform_ofExcept_bind_eq_ok.1 hrest
  rw [Work.perform_bind_ok (Work.perform_get s₁), Work.perform_bind_ok (Work.perform_modify _ s₁)] at hread
  obtain ⟨htask, -⟩ := scan_found hscan
  rw [htask] at hread
  obtain ⟨ts, rfl, hdefine⟩ : ∃ ts, found = some (.list (.word "define" :: ts)) ∧ ts = parts := by
    unfold sections at hparts
    split at hparts
    · cases hparts
    · split at hparts
      · rename_i hword
        cases hparts
        rw [beq_iff_eq.1 hword]
        exact ⟨_, rfl, rfl⟩
      · cases hparts
    · cases hparts
  subst hdefine
  refine ⟨ts, ?_, ?_⟩
  · unfold scan at hscan
    simp only at hscan
    rw [Work.perform_bind_ok (Work.perform_get s₀)] at hscan
    cases htree : Source.scan s₀.task.dialect text with
    | error e =>
      rw [htree] at hscan
      cases hscan
    | ok tree =>
      rw [htree] at hscan
      cases hscan
      rfl
  · cases hfault : (({} : Domain).readSections s₀.task.dialect ts).fault with
    | some e =>
      rw [hfault] at hread
      cases hread
    | none =>
      rw [hfault] at hread
      cases hread
      exact ⟨rfl, rfl⟩

/-- **When every action has an entry for every group.**  The groups of a domain that is accepted are distinct, and each
action has entries for those that are declared before it.  All actions have entries for all groups exactly if no group
is declared behind an action; an action that has them never misses a group, and one that has not stops at the first
group without an entry. -/
theorem group_entries_complete_iff {file text : String} {s₀ s : Session} (hdialect : s₀.task.dialect = .groups)
    (h : (readDomain file (some text)).perform s₀ = (.ok (), s)) :
    ∃ parts d, Source.scan .groups text = .ok (.list (.word "define" :: parts)) ∧ s.task.domain = some d ∧
      d.groups = declaredGroups parts ∧ d.groups.Nodup ∧
      List.Forall₂ (fun known a => a.HasEntries known) (groupsAtActions [] parts) d.actions ∧
      ((∀ a ∈ d.actions, a.Covers d.groups) ↔ ∀ before t after, parts = before ++ t :: after →
        t.isActionSection = true → declaredGroups after = []) ∧
      ∀ a ∈ d.actions, (a.Covers d.groups → a.NeverMisses d.groups) ∧
        (¬a.Covers d.groups → a.StopsAtGroup d.groups) := by
  obtain ⟨parts, hscan, hfault, hdomain⟩ := readDomain_ok h
  rw [hdialect] at hscan hfault hdomain
  obtain ⟨hgroups, hnodup, new, hactions, hentries⟩ := Domain.readSections_groups (d := {}) List.nodup_nil hfault
  generalize (({} : Domain).readSections .groups parts).domain = d at hgroups hnodup hactions hdomain
  rw [List.nil_append] at hgroups hactions
  -- the groups behind an action, which has entries for those before it
  have hbehind : ∀ {before t after}, parts = before ++ t :: after → t.isActionSection = true →
      d.groups = declaredGroups before ++ declaredGroups after := by
    intro before t after hparts ht
    rw [hgroups, hparts, declaredGroups, List.flatMap_append, List.flatMap_cons,
      Tree.sectionGroups_of_isActionSection ht]
    rfl
  have hplace : ∀ a ∈ d.actions, ∃ before t after, parts = before ++ t :: after ∧ t.isActionSection = true ∧
      a.HasEntries (declaredGroups before) := by
    intro a ha
    rw [hactions] at ha
    obtain ⟨gs, hgs, hentry⟩ := exists_of_mem_right hentries ha
    obtain ⟨before, t, after, hparts, ht, rfl⟩ := mem_groupsAtActions.1 hgs
    exact ⟨before, t, after, hparts, ht, hentry⟩
  have hcovers : ∀ {a : Action} {before t after}, parts = before ++ t :: after → t.isActionSection = true →
      a.HasEntries (declaredGroups before) → (a.Covers d.groups ↔ declaredGroups after = []) := by
    intro a before t after hparts ht ha
    rw [hbehind hparts ht] at hnodup ⊢
    exact ha.covers_iff hnodup
  refine ⟨parts, d, hscan, hdomain, hgroups, hnodup, hactions ▸ hentries, ?_,
    fun a ha => ⟨fun hcov => hcov.neverMisses, fun hcov => ?_⟩⟩
  · constructor
    · intro hall before t after hparts ht
      have hgs : declaredGroups before ∈ groupsAtActions [] parts :=
        mem_groupsAtActions.2 ⟨before, t, after, hparts, ht, rfl⟩
      obtain ⟨a, ha, hentry⟩ := exists_of_mem_right hentries.flip hgs
      exact (hcovers hparts ht hentry).1 (hall a (hactions ▸ ha))
    · intro hnone a ha
      obtain ⟨before, t, after, hparts, ht, hentry⟩ := hplace a ha
      exact (hcovers hparts ht hentry).2 (hnone before t after hparts ht)
  · obtain ⟨before, t, after, hparts, ht, hentry⟩ := hplace a ha
    have hlater := mt (hcovers hparts ht hentry).2 hcov
    rw [hbehind hparts ht] at hnodup ⊢
    obtain ⟨g, later, hafter⟩ := List.exists_cons_of_ne_nil hlater
    rw [hafter] at hnodup ⊢
    exact hentry.stopsAtGroup hnodup

/-- A group that is declared behind the only action. -/
def lateGroup : String := "(define (domain d) (:predicates (p)) (:action go :effect (p)) (:obs_groups (g)))"

theorem group_entries_complete_iff_late :
    ∃ d a, ((readDomain "d" (some lateGroup)).perform { task := { dialect := .groups } }).2.task.domain = some d ∧
      a ∈ d.actions ∧ ¬a.Covers d.groups ∧ ∀ agents sheet,
        (MAp.groupObservers agents d.groups a).perform sheet = (.error .unknownGroup, sheet) := by
  have hok : ((readDomain "d" (some lateGroup)).perform { task := { dialect := .groups } }).1.isOk = true := by
    decide +kernel
  obtain ⟨parts, d, hscan, hd, hgroups, -, hentries, -, hstops⟩ := group_entries_complete_iff rfl (Work.ok_of_isOk hok)
  have hparts : (Source.scan .groups lateGroup).toOption.map (fun t => t.items.tail) = some
      [.list [.word "domain", .word "d"], .list [.word ":predicates", .list [.word "p"]],
        .list [.word ":action", .word "go", .word ":effect", .list [.word "p"]],
        .list [.word ":obs_groups", .list [.word "g"]]] := by
    decide +kernel
  rw [hscan] at hparts
  obtain rfl := Option.some.inj hparts
  have hgroups : d.groups = [] ++ [.word "g"] := hgroups
  have hentries : List.Forall₂ (fun known a => Action.HasEntries a known) [[]] d.actions := hentries
  obtain ⟨a, ha, hentry⟩ := exists_of_mem_right hentries.flip (List.mem_singleton_self [])
  have hcovers : ¬a.Covers d.groups := by
    rw [hgroups, Action.HasEntries.covers_iff hentry (by simp)]
    simp
  obtain ⟨known, g, later, hsplit, ⟨members, ho, -⟩, -, hprint⟩ := (hstops a ha).2 hcovers
  refine ⟨d, a, hd, ha, hcovers, fun agents sheet => ?_⟩
  rw [hgroups, List.nil_append] at hsplit
  obtain ⟨rfl, rfl⟩ : known = [] ∧ g = .word "g" := by
    cases known with
    | nil => exact ⟨rfl, (List.cons.inj hsplit).1.symm⟩
    | cons k known => simp at hsplit
  rw [hprint, MAp.groupObservers, ho]
  rfl

end Session

end Epistemic
