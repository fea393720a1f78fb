import Epistemic.Proofs.Parsed
/-!
# The guards of a task that was read

Every guard of a task that was read has been written out: its conditions are made of words of the text, or there are
none and one blank condition says so (`Session.Parsed.writtenGuards`).  A clause can leave its conditions out, ask for
one, deny some, or state a conjunction of both signs.  So a condition that is to hold is never empty, and only a guard
with one such condition, blank or not, says by a blank one that none is denied (`Session.Parsed.statedGuards`).
-/
namespace Epistemic

theorem readClass_isOnLine : ReadClass Source.IsOnLine where
  char w hw c hc := by
    refine ⟨ofList_ne_empty (List.cons_ne_nil c []), fun hline => ?_⟩
    rw [String.toList_ofList, List.mem_singleton] at hline
    exact hw.2 (hline ▸ hc)
  marked w hw := by
    refine ⟨append_ne_empty (append_ne_empty (by decide)), ?_⟩
    rw [marked, String.toList_append, String.toList_append, List.mem_append, List.mem_append, not_or, not_or]
    exact ⟨⟨by decide, hw.2⟩, by decide⟩

/-- A table of guards has one at every place, which asks for nothing behind its end. -/
theorem guardAt_of_forall {Q : Guard → Prop} {guards : List Guard} (h : ∀ g ∈ guards, Q g) (hnone : Q ⟨[], []⟩)
    (i : Nat) : Q (guardAt guards i) := by
  rw [guardAt, List.getD_eq_getElem?_getD]
  cases hi : guards[i]? with
  | none => exact hnone
  | some g => exact h g (List.mem_of_getElem? hi)

namespace Action

/-- Every guard of an action is in the class, unless it is blank. -/
def GuardsWritten (P : String → Prop) (a : Action) : Prop := ∀ g ∈ a.guards, g.Written P

/-- Every guard of an action is in a class of guards. -/
def GuardsAll (Q : Guard → Prop) (a : Action) : Prop := ∀ g ∈ a.guards, Q g

section
variable {P : String → Prop} {Q : Guard → Prop} {a b : Action} {value : Tree}

/-- The guards of an action are as they were, or a clause has been read into them. -/
def GuardsFrom (value : Tree) (a b : Action) : Prop :=
  b.guards = a.guards ∨ ∃ (place : Place) (r : Reading), r.guards = a.guards ∧
    b.guards = (readClause place value r).reading.guards

theorem guardsFrom_observers {known : List Entry} {f : List Guard × List Entry → Action}
    (hf : ∀ found, (f found).guards = found.1) (h : (a.addObservers known value).map f = .ok b) :
    a.GuardsFrom value b := by
  unfold addObservers at h
  simp only at h
  split at h
  · cases h
  · cases h
    exact .inr ⟨_, ⟨a.guards, known, []⟩, rfl, hf _⟩

theorem guardsFrom_addToGroup {group : String} (h : a.addToGroup group value = .ok b) : a.GuardsFrom value b := by
  unfold addToGroup at h
  split at h
  · exact guardsFrom_observers (fun _ => rfl) h
  · cases h
    exact .inl rfl

theorem guardsFrom_setField {field : ActionField} (h : a.setField value field = .ok b) : a.GuardsFrom value b := by
  cases field with
  | parameters =>
    simp only [setField, readParameters] at h
    split at h
    · split at h <;> cases h
      exact .inl rfl
    · split at h <;> cases h
      exact .inl rfl
  | kind =>
    simp only [setField] at h
    cases hkind : ActionKind.read value <;> rw [hkind] at h <;> cases h
    exact .inl rfl
  | precondition =>
    simp only [setField, readPrecondition] at h
    split at h <;> cases h
    exact .inl rfl
  | effect =>
    simp only [setField, addEffect] at h
    split at h <;> cases h
    exact .inr ⟨_, ⟨a.guards, a.addEffects, a.deleteEffects⟩, rfl, rfl⟩
  | observers =>
    simp only [setField, addFullObservers] at h
    split at h
    · exact guardsFrom_observers (fun _ => rfl) h
    · cases h
      exact .inl rfl
  | observersInPart =>
    simp only [setField, addObserversInPart] at h
    split at h
    · exact guardsFrom_observers (fun _ => rfl) h
    · cases h
      exact .inl rfl
  | derivation | explicitEffect =>
    cases h
    exact .inl rfl

variable (hP : ReadClass P) (hQ : GuardClass P Q)
include hP hQ

/-- **A field does not leave a class of guards.** -/
theorem GuardsAll.of_guardsFrom (h : a.GuardsAll Q) (hvalue : value.AllWords P) (hfrom : a.GuardsFrom value b) :
    b.GuardsAll Q := by
  intro g hg
  rcases hfrom with hsame | ⟨place, r, hr, hread⟩
  · exact h g (hsame ▸ hg)
  · rcases (adds_readClause hP hQ r hvalue).guards g (hread ▸ hg) with hold | hnew
    · exact h g (hr ▸ hold)
    · exact hnew

theorem GuardsAll.declareFields {dialect : Dialect} {groups ts : List Tree} {report : String}
    (h : a.GuardsAll Q) (hts : ∀ t ∈ ts, t.AllWords P)
    (hread : (declareFields dialect groups ts report a).outcome = .ok b) : b.GuardsAll Q := by
  fun_induction Action.declareFields dialect groups ts report a with
  | case1 => cases hread; exact h
  | case2 t ts report a _ ih => exact ih h (List.forall_mem_cons.1 hts).2 hread
  | case7 t report a field _ value _ group _ _ value' ts a' hadd ih =>
    have hts := List.forall_mem_cons.1 (List.forall_mem_cons.1 (List.forall_mem_cons.1 hts).2).2
    exact ih (h.of_guardsFrom hP hQ hts.1 (guardsFrom_addToGroup hadd)) hts.2 hread
  | case10 t report a field _ value ts _ a' hset ih =>
    have hts := List.forall_mem_cons.1 (List.forall_mem_cons.1 hts).2
    exact ih (h.of_guardsFrom hP hQ hts.1 (guardsFrom_setField hset)) hts.2 hread
  | case3 | case4 | case5 | case6 | case8 | case9 => cases hread

theorem guardsAll_declare {dialect : Dialect} {known : List String} {groups ts : List Tree}
    (hts : ∀ t ∈ ts, t.AllWords P) (hread : (declare dialect known groups ts).outcome = .ok a) :
    a.GuardsAll Q := by
  unfold declare at hread
  split at hread
  · cases hread
  · cases hread
  · rename_i name ts
    split at hread
    · cases hread
    · split at hread
      · cases hread
      · rename_i observers _
        have hnew : GuardsAll Q { name, observers } := fun g hg => by cases hg
        exact hnew.declareFields hP hQ (List.forall_mem_cons.1 hts).2 hread

end
end Action

namespace Domain

/-- Every guard of the actions is in the class, unless it is blank. -/
def GuardsWritten (P : String → Prop) (d : Domain) : Prop := ∀ a ∈ d.actions, a.GuardsWritten P

/-- Every guard of the actions is in a class of guards. -/
def GuardsAll (Q : Guard → Prop) (d : Domain) : Prop := ∀ a ∈ d.actions, a.GuardsAll Q

variable {P : String → Prop} {Q : Guard → Prop} {dialect : Dialect} {d : Domain} {t : Tree}

/-- A section leaves the actions as they are, or adds one that it declares. -/
theorem readSection_actions (dialect : Dialect) (d : Domain) (t : Tree) :
    (d.readSection dialect t).domain.actions = d.actions ∨
    ∃ keyword parts known groups a, t = .list (keyword :: parts) ∧
      (Action.declare dialect known groups parts).outcome = .ok a ∧
      (d.readSection dialect t).domain.actions = d.actions ++ [a] := by
  unfold readSection
  split
  · exact .inl rfl
  · exact .inl rfl
  · rename_i keyword parts
    unfold readBehind
    split
    · cases parts <;> exact .inl rfl
    split
    · unfold readRequirements
      split <;> exact .inl rfl
    split
    · exact .inl rfl
    split
    · exact .inl rfl
    split
    · exact .inl rfl
    split
    · unfold readAction
      simp only
      split
      · exact .inl rfl
      · rename_i a hread
        exact .inr ⟨keyword, parts, _, _, a, rfl, hread, rfl⟩
    split <;> exact .inl rfl

theorem GuardsAll.readSection (hP : ReadClass P) (hQ : GuardClass P Q) (h : d.GuardsAll Q) (ht : t.AllWords P) :
    (d.readSection dialect t).domain.GuardsAll Q := by
  intro a ha
  rcases readSection_actions dialect d t with hsame | ⟨keyword, parts, _, _, a', rfl, hread, hadded⟩
  · exact h a (hsame ▸ ha)
  · have hparts := (List.forall_mem_cons.1 (Tree.allWords_list.1 ht)).2
    rw [hadded, List.mem_append, List.mem_singleton] at ha
    rcases ha with ha | rfl
    · exact h a ha
    · exact Action.guardsAll_declare hP hQ hparts hread

end Domain

namespace Session

/-- **The guards of a task that was read are in every class that clauses do not leave.** -/
theorem Parsed.guardsAll {Q : Guard → Prop} (hQ : GuardClass Source.IsOnLine Q) {s : Session} (h : Parsed s) :
    ∀ d, s.task.domain = some d → d.GuardsAll Q := by
  induction h with
  | fresh dialect => exact fun d hd => by cases hd
  | @domain s _ file text ih =>
    rcases readDomain_sections s file text with hsame | ⟨parts, hparts, hread⟩
    · exact hsame ▸ ih
    · intro d hd
      rw [hread] at hd
      cases hd
      have hwords := hparts.allWords Source.tokenClass_isOnLine
      exact Domain.readSections_keeps
        (fun d t ht hd => hd.readSection readClass_isOnLine hQ (hwords t ht)) fun a ha => by cases ha
  | @problem s _ file text ih =>
    obtain ⟨begun, rfl, hsame | ⟨parts, hparts, hread⟩⟩ := readProblem_task s file text
    · exact hsame ▸ ih
    · intro d hd a ha
      rw [hread] at hd
      have hempty : ({} : Problem).Scanned := fun f hf => by cases hf
      -- a problem may declare objects, but it leaves the actions of the domain as they are
      obtain ⟨d', hd', hactions⟩ := (Problem.scanned_readSections hempty hparts).actions d hd
      exact ih d' hd' a (hactions ▸ ha)

/-- **The guards of a task that was read are written out.** -/
theorem Parsed.writtenGuards {s : Session} (h : Parsed s) :
    ∀ d, s.task.domain = some d → d.GuardsWritten Source.IsOnLine :=
  h.guardsAll (guardClass_written readClass_isOnLine)

end Session

/-! ## Stated conditions -/

/-- A guard as a clause states it.  Each condition that is to hold has items; what is denied is in words of the class,
or it is a blank condition behind a single one. -/
structure Guard.Stated (P : String → Prop) (g : Guard) : Prop where
  full : ∀ c ∈ g.positive, c.items ≠ []
  lone : (g.negative = blankConditions ∧ g.positive.length = 1) ∨ ∀ c ∈ g.negative, c.AllWords P

theorem blankConditions_full : ∀ c ∈ blankConditions, c.items ≠ [] := by
  intro c hc
  rw [List.mem_singleton.1 hc]
  exact List.cons_ne_nil _ _

theorem items_markIfIn {v rule rule' : Tree} (hrule : rule.items ≠ []) (h : markIfIn v rule = .ok rule') :
    rule'.items ≠ [] := by
  unfold markIfIn at h
  split at h
  · cases h
  · cases h
    exact hrule
  · unfold markFirst at h
    split at h
    · cases h
    · cases h
    · cases h
      exact mt (List.set_eq_nil_iff _ _).1 hrule

theorem items_markEach {v : Tree} : ∀ {cs cs' : List Tree}, (∀ c ∈ cs, c.items ≠ []) → markEach v cs = .ok cs' →
    (∀ c ∈ cs', c.items ≠ []) ∧ cs'.length = cs.length
  | [], cs', _, h => by
    cases h
    simp
  | c :: cs, cs', hcs, h => by
    obtain ⟨hc, hcs⟩ := List.forall_mem_cons.1 hcs
    unfold markEach at h
    split at h
    · cases h
    · rename_i c' hc'
      cases hrest : markEach v cs with
      | error e => rw [hrest] at h; cases h
      | ok rest =>
        rw [hrest] at h
        cases h
        obtain ⟨hfull, hlength⟩ := items_markEach hcs hrest
        exact ⟨List.forall_mem_cons.2 ⟨items_markIfIn hc hc', hfull⟩, by simp [hlength]⟩

/-- **Clauses state guards**, and marking a variable in one does not change that. -/
theorem guardClass_stated {P : String → Prop} (hP : ReadClass P) : GuardClass P (Guard.Stated P) where
  blank := ⟨blankConditions_full, .inl ⟨rfl, rfl⟩⟩
  stated c hc _ := ⟨List.forall_mem_singleton.2 hc, .inl ⟨rfl, rfl⟩⟩
  denied cs hcs := ⟨blankConditions_full, .inr hcs⟩
  conjoined ps ns hps hns := ⟨fun c hc => (hps c hc).1, .inr hns⟩
  marked := by
    intro v g ps ns hg hv hquestion hps hns
    obtain ⟨hfull, hlength⟩ := items_markEach hg.full hps
    refine ⟨hfull, ?_⟩
    rcases hg.lone with ⟨hblank, hone⟩ | hwords
    · rw [hblank, markEach_blank hquestion] at hns
      cases hns
      exact .inl ⟨rfl, hlength.trans hone⟩
    · exact .inr (allWords_markEach hP hv hwords hns)

/-- **The guards of a task that was read are stated.** -/
theorem Session.Parsed.statedGuards {s : Session} (h : Session.Parsed s) :
    ∀ d, s.task.domain = some d → d.GuardsAll (Guard.Stated Source.IsOnLine) :=
  h.guardsAll (guardClass_stated readClass_isOnLine)

end Epistemic
