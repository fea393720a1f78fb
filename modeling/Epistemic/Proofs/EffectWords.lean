import Epistemic.Effect.Reading
import Epistemic.Proofs.Words
/-!
# The words of effects

Reading an effect or observers takes words from the text and marks some of them.  A class of words that allows this is
not left by the bodies and the conditions that are added, where no conditions at all are written out as a blank one.
More generally, a class of guards that holds those which a clause can state, with variables marked in them, is not left
by the guards that are added (`adds_readClause`).
-/
namespace Epistemic

/-- A class of words that holds their characters, and the words that are marked. -/
structure ReadClass (P : String → Prop) : Prop where
  char : ∀ w, P w → ∀ c ∈ w.toList, P (String.ofList [c])
  marked : ∀ w, P w → P (marked w)

/-- A class of words that reading effects does not leave: it holds the empty word and words that are marked. -/
structure EffectClass (P : String → Prop) : Prop extends WordClass P where
  empty : P ""
  marked : ∀ w, P w → P (marked w)

theorem EffectClass.toReadClass {P : String → Prop} (h : EffectClass P) : ReadClass P :=
  ⟨fun _ _ c _ => h.char c, h.marked⟩

theorem ReadClass.items {P : String → Prop} (hP : ReadClass P) {t : Tree} (h : t.AllWords P) :
    ∀ x ∈ t.items, x.AllWords P := by
  cases t with
  | list xs => exact Tree.allWords_list.1 h
  | word w =>
    intro x hx
    obtain ⟨c, hc, rfl⟩ := List.mem_map.1 hx
    exact hP.char w h c hc

/-- Conditions in the class, or none, written out. -/
def AreWritten (P : String → Prop) (cs : List Tree) : Prop := cs = blankConditions ∨ ∀ c ∈ cs, c.AllWords P

/-- Both lists of conditions are in the class, unless they are blank. -/
structure Guard.Written (P : String → Prop) (g : Guard) : Prop where
  positive : AreWritten P g.positive
  negative : AreWritten P g.negative

/-- Both lists of conditions are in the class. -/
structure Guard.AllWords (P : String → Prop) (g : Guard) : Prop where
  positive : ∀ t ∈ g.positive, t.AllWords P
  negative : ∀ t ∈ g.negative, t.AllWords P

/-- The guards and the bodies of what was read are in the class. -/
structure Reading.AllWords (P : String → Prop) (r : Reading) : Prop where
  guards : ∀ g ∈ r.guards, g.AllWords P
  positive : ∀ e ∈ r.positive, e.body.AllWords P
  negative : ∀ e ∈ r.negative, e.body.AllWords P

/-- A class of guards that a clause in words of a class can state: a blank one, one condition that is to hold,
conditions that are denied, a conjunction of both signs, and those in which a variable is marked. -/
structure GuardClass (P : String → Prop) (Q : Guard → Prop) : Prop where
  blank : Q .blank
  stated : ∀ c, c.items ≠ [] → c.AllWords P → Q ⟨[c], blankConditions⟩
  denied : ∀ cs, (∀ c ∈ cs, c.AllWords P) → Q ⟨blankConditions, cs⟩
  conjoined : ∀ ps ns, (∀ c ∈ ps, c.items ≠ [] ∧ c.AllWords P) → (∀ c ∈ ns, c.AllWords P) → Q ⟨ps, ns⟩
  marked : ∀ {v g ps ns}, Q g → v.AllWords P → v.mentions "?" = true → markEach v g.positive = .ok ps →
    markEach v g.negative = .ok ns → Q ⟨ps, ns⟩

/-- What one reading has and another had not is in the classes. -/
structure Reading.Adds (P : String → Prop) (Q : Guard → Prop) (r r' : Reading) : Prop where
  guards : ∀ g ∈ r'.guards, g ∈ r.guards ∨ Q g
  positive : ∀ e ∈ r'.positive, e ∈ r.positive ∨ e.body.AllWords P
  negative : ∀ e ∈ r'.negative, e ∈ r.negative ∨ e.body.AllWords P

/-- All that a meaning holds is in the classes, and what it says to hold has items. -/
def Meaning.Written (P : String → Prop) (Q : Guard → Prop) : Meaning → Prop
  | literal atom => atom.items ≠ [] ∧ atom.AllWords P
  | negated atom => atom.AllWords P
  | conjunction positive negative => (∀ t ∈ positive, t.items ≠ [] ∧ t.AllWords P) ∧ ∀ t ∈ negative, t.AllWords P
  | conditional body guard => body.AllWords P ∧ Q guard
  | quantified => True

/-- What is added to a reading, what is left of the tree and what it means are in the classes. -/
structure ReadTree.Adds (P : String → Prop) (Q : Guard → Prop) (r : Reading) (done : ReadTree) : Prop where
  reading : r.Adds P Q done.reading
  left : done.left.AllWords P
  outcome : ∀ m, done.outcome = .ok m → m.Written P Q

/-- Reading a tree of the class does not leave the classes. -/
def ReadsWithin (P : String → Prop) (Q : Guard → Prop) (read : Scope → Tree → Reading → ReadTree) : Prop :=
  ∀ s t r, t.AllWords P → (read s t r).Adds P Q r

section
variable {P : String → Prop} {Q : Guard → Prop}

theorem Guard.written_blank : Guard.blank.Written P := ⟨.inl rfl, .inl rfl⟩

theorem AreWritten.allWords {cs : List Tree} (h : AreWritten P cs) (hempty : P "") : ∀ c ∈ cs, c.AllWords P := by
  rcases h with rfl | h
  · simp only [blankConditions, List.mem_singleton, forall_eq]
    exact Tree.allWords_list.2 (by simpa [Tree.AllWords] using hempty)
  · exact h

namespace Reading.Adds

theorem refl (r : Reading) : r.Adds P Q r := ⟨fun _ => .inl, fun _ => .inl, fun _ => .inl⟩

theorem trans {r r' r'' : Reading} (h : r.Adds P Q r') (h' : r'.Adds P Q r'') : r.Adds P Q r'' where
  guards g hg := (h'.guards g hg).elim (h.guards g) .inr
  positive e he := (h'.positive e he).elim (h.positive e) .inr
  negative e he := (h'.negative e he).elim (h.negative e) .inr

/-- A reading in the class stays there when what is added is. -/
theorem allWords {r r' : Reading} (h : r.Adds P (Guard.Written P) r') (hempty : P "") (hr : r.AllWords P) :
    r'.AllWords P where
  guards g hg := (h.guards g hg).elim (hr.guards g) fun hg => ⟨hg.positive.allWords hempty, hg.negative.allWords hempty⟩
  positive e he := (h.positive e he).elim (hr.positive e) id
  negative e he := (h.negative e he).elim (hr.negative e) id

variable (r : Reading)

theorem addGuard {g : Guard} (hg : Q g) : r.Adds P Q (r.addGuard g).1 := by
  refine ⟨fun g' hg' => ?_, fun _ => .inl, fun _ => .inl⟩
  rcases List.mem_append.1 hg' with hg' | hg'
  · exact .inl hg'
  · exact .inr (List.mem_singleton.1 hg' ▸ hg)

theorem addPositive (s : Scope) {body : Tree} (hbody : body.AllWords P) : r.Adds P Q (r.addPositive s body) := by
  unfold Reading.addPositive
  split
  · refine ⟨fun _ => .inl, fun e he => ?_, fun _ => .inl⟩
    rcases List.mem_append.1 he with he | he
    · exact .inl he
    · exact .inr (List.mem_singleton.1 he ▸ hbody)
  · exact .refl r

theorem addNegative (s : Scope) {body : Tree} (hbody : body.AllWords P) : r.Adds P Q (r.addNegative s body) := by
  unfold Reading.addNegative
  split
  · refine ⟨fun _ => .inl, fun _ => .inl, fun e he => ?_⟩
    rcases List.mem_append.1 he with he | he
    · exact .inl he
    · exact .inr (List.mem_singleton.1 he ▸ hbody)
  · exact .refl r

theorem addCopies (hblank : Q .blank) (s : Scope) {rule : Tree} (hrule : rule.AllWords P) (n : Nat) :
    r.Adds P Q (r.addCopies s rule n) := by
  induction n generalizing r with
  | zero => exact .refl r
  | succ n ih =>
    unfold Reading.addCopies
    exact ((addGuard r hblank).trans (addPositive _ _ hrule)).trans (ih _)

end Reading.Adds

theorem ReadTree.Adds.stopped (r : Reading) {t : Tree} {e : Fault} (ht : t.AllWords P) :
    ReadTree.Adds P Q r ⟨r, t, .error e⟩ := ⟨.refl r, ht, fun _ h => by cases h⟩

theorem Meaning.written_conjoin : ∀ {ms : List Meaning}, (∀ m ∈ ms, m.Written P Q) →
    (∀ t ∈ (conjoin ms).1, t.items ≠ [] ∧ t.AllWords P) ∧ ∀ t ∈ (conjoin ms).2, t.AllWords P
  | [], _ => ⟨by simp [conjoin], by simp [conjoin]⟩
  | m :: ms, h => by
    obtain ⟨hm, hms⟩ := List.forall_mem_cons.1 h
    obtain ⟨hpositive, hnegative⟩ := written_conjoin hms
    unfold conjoin
    cases m with
    | literal atom => exact ⟨List.forall_mem_cons.2 ⟨hm, hpositive⟩, hnegative⟩
    | negated atom => exact ⟨hpositive, List.forall_mem_cons.2 ⟨hm, hnegative⟩⟩
    | conjunction p n =>
      have hp : (Tree.list p).AllWords P := Tree.allWords_list.2 fun t ht => (hm.1 t ht).2
      exact ⟨hpositive, List.forall_mem_cons.2 ⟨hp, hnegative⟩⟩
    | conditional body guard => exact ⟨hpositive, List.forall_mem_cons.2 ⟨hm.1, hnegative⟩⟩
    | quantified => exact ⟨hpositive, hnegative⟩

/-! ## Marks -/

variable (hP : ReadClass P)
include hP

theorem allWords_markFirst {v rule rule' : Tree} (hv : v.AllWords P) (hrule : rule.AllWords P)
    (h : markFirst v rule = .ok rule') : rule'.AllWords P := by
  unfold markFirst at h
  split at h
  · cases h
  · cases h
  · rename_i w xs
    cases h
    refine Tree.allWords_list.2 fun x hx => ?_
    rcases List.mem_or_eq_of_mem_set hx with hx | rfl
    · exact Tree.allWords_list.1 hrule x hx
    · exact hP.marked w hv

theorem allWords_markIfIn {v rule rule' : Tree} (hv : v.AllWords P) (hrule : rule.AllWords P)
    (h : markIfIn v rule = .ok rule') : rule'.AllWords P := by
  unfold markIfIn at h
  split at h
  · cases h
  · cases h
    exact hrule
  · exact allWords_markFirst hP hv hrule h

theorem allWords_markEach {v : Tree} (hv : v.AllWords P) : ∀ {cs cs' : List Tree}, (∀ c ∈ cs, c.AllWords P) →
    markEach v cs = .ok cs' → ∀ c ∈ cs', c.AllWords P
  | [], cs', _, h => by
    cases h
    simp
  | c :: cs, cs', hcs, h => by
    obtain ⟨hc, hcs⟩ := List.forall_mem_cons.1 hcs
    unfold markEach at h
    split at h
    · cases h
    · rename_i c' hc'
      cases hrest : markEach v cs with
      | error e => rw [hrest] at h; cases h
      | ok rest =>
        rw [hrest] at h
        cases h
        exact List.forall_mem_cons.2 ⟨allWords_markIfIn hP hv hc hc', allWords_markEach hv hcs hrest⟩

omit hP in
/-- A variable does not stand in a blank condition, so nothing is marked there. -/
theorem markEach_blank {v : Tree} (hv : v.mentions "?" = true) : markEach v blankConditions = .ok blankConditions := by
  have hne : v ≠ .word "" := by
    rintro rfl
    revert hv
    decide
  have hout : markIfIn v (.list [.word ""]) = .ok (.list [.word ""]) := by simp [markIfIn, standsIn, hne]
  rw [blankConditions, markEach, hout]
  rfl

theorem AreWritten.markEach {v : Tree} {cs cs' : List Tree} (h : AreWritten P cs) (hv : v.AllWords P)
    (hquestion : v.mentions "?" = true) (hmark : markEach v cs = .ok cs') : AreWritten P cs' := by
  rcases h with rfl | h
  · rw [markEach_blank hquestion] at hmark
    cases hmark
    exact .inl rfl
  · exact .inr (allWords_markEach hP hv h hmark)

/-! ## Reading -/

omit hP in
theorem adds_readEach {read : Tree → Reading → ReadTree} (hread : ∀ t r, t.AllWords P → (read t r).Adds P Q r) :
    ∀ {ts : List Tree} (r : Reading), (∀ t ∈ ts, t.AllWords P) → r.Adds P Q (readEach read ts r).reading ∧
      (∀ t ∈ (readEach read ts r).left, t.AllWords P) ∧
      ∀ ms, (readEach read ts r).outcome = .ok ms → ∀ m ∈ ms, m.Written P Q
  | [], r, _ => ⟨.refl r, by simp [readEach], fun ms h => by cases h; simp⟩
  | t :: ts, r, hts => by
    obtain ⟨ht, hts⟩ := List.forall_mem_cons.1 hts
    have hfirst := hread t r ht
    unfold readEach
    simp only
    split
    · exact ⟨hfirst.reading, List.forall_mem_cons.2 ⟨hfirst.left, hts⟩, fun ms h => by cases h⟩
    · rename_i m hm
      obtain ⟨hreading, hleft, houtcome⟩ := adds_readEach hread (read t r).reading hts
      refine ⟨hfirst.reading.trans hreading, List.forall_mem_cons.2 ⟨hfirst.left, hleft⟩, fun ms h => ?_⟩
      cases hrest : (readEach read ts (read t r).reading).outcome with
      | error e => rw [hrest] at h; cases h
      | ok rest =>
        rw [hrest] at h
        cases h
        exact List.forall_mem_cons.2 ⟨hfirst.outcome m hm, houtcome rest hrest⟩

theorem guardClass_written : GuardClass P (Guard.Written P) where
  blank := Guard.written_blank
  stated c _ hc := ⟨.inr (by simpa using hc), .inl rfl⟩
  denied cs hcs := ⟨.inl rfl, .inr hcs⟩
  conjoined ps ns hps hns := ⟨.inr fun c hc => (hps c hc).2, .inr hns⟩
  marked hg hv hquestion hps hns :=
    ⟨hg.positive.markEach hP hv hquestion hps, hg.negative.markEach hP hv hquestion hns⟩

omit hP in
theorem items_of_headKeyword? {t : Tree} {k : Option Keyword} (h : headKeyword? t = .ok k) : t.items ≠ [] := by
  unfold headKeyword? at h
  split at h
  · cases h
  · rename_i head rest hitems
    rw [hitems]
    exact List.cons_ne_nil head rest

variable (hQ : GuardClass P Q) {read : Scope → Tree → Reading → ReadTree} (hread : ReadsWithin P Q read) {place : Place}
include hQ hread

theorem guardClass_readCondition {condition : Tree} {r : Reading} {g : Guard} (hc : condition.AllWords P)
    (h : readCondition place read condition r = .ok g) : Q g := by
  unfold readCondition at h
  split at h
  · cases h
  · cases h
  · cases h
  · split at h
    · rename_i positive negative houtcome
      cases h
      have hm := (hread _ condition r hc).outcome _ houtcome
      exact hQ.conjoined positive negative hm.1 hm.2
    · cases h
      exact hQ.blank
    · cases h
  · cases h
    exact hQ.denied _ fun t ht => hP.items hc t (List.mem_of_mem_drop ht)
  · rename_i hhead
    cases h
    exact hQ.stated condition (items_of_headKeyword? hhead) hc

theorem adds_readWhen {s : Scope} {parts : List Tree} (r : Reading) (hparts : ∀ t ∈ parts, t.AllWords P) :
    (readWhen place read s parts r).Adds P Q r := by
  rcases parts with _ | ⟨condition, parts⟩
  · exact .stopped r (Tree.allWords_list.2 hparts)
  obtain ⟨hcondition, hparts⟩ := List.forall_mem_cons.1 hparts
  unfold readWhen
  simp only
  split
  · exact .stopped r (Tree.allWords_list.2 hparts)
  · rename_i guard hguard
    have hg := guardClass_readCondition hP hQ hread hcondition hguard
    rcases parts with _ | ⟨body, parts⟩
    · exact .stopped r (Tree.allWords_list.2 hparts)
    obtain ⟨hbody, hparts⟩ := List.forall_mem_cons.1 hparts
    have hdone := hread { s with guard := (r.addGuard guard).2 } body (r.addGuard guard).1 hbody
    simp only
    split
    · exact .stopped r (Tree.allWords_list.2 hparts)
    · exact .stopped r (Tree.allWords_list.2 hparts)
    · exact .stopped r (Tree.allWords_list.2 hparts)
    · refine ⟨(Reading.Adds.addGuard r hg).trans hdone.reading, Tree.allWords_list.2 hparts, fun m hm => ?_⟩
      simp only at hm
      cases hout : (read { s with guard := (r.addGuard guard).2 } body (r.addGuard guard).1).outcome with
      | error e => rw [hout] at hm; cases hm
      | ok k =>
        rw [hout] at hm
        cases hm
        exact ⟨hdone.left, hg⟩

/-- **A rule is read for each variable within the classes.** -/
theorem adds_readForEach {s : Scope} : ∀ {vars : List Tree} {rule : Tree} (copies : Nat) (r : Reading),
    (∀ v ∈ vars, v.AllWords P) → rule.AllWords P → r.Adds P Q (readForEach read s vars rule copies r).1
  | [], rule, copies, r, _, hrule => .addCopies r hQ.blank s hrule copies
  | v :: vs, rule, copies, r, hvars, hrule => by
    obtain ⟨hv, hvs⟩ := List.forall_mem_cons.1 hvars
    have hcopies := Reading.Adds.addCopies r hQ.blank s hrule copies
    unfold readForEach
    split
    · rename_i hquestion
      split
      · exact hcopies
      · split
        · exact hcopies
        · rename_i rule' hmark
          have hrule' := allWords_markFirst hP hv hrule hmark
          split
          · exact adds_readForEach _ r hvs hrule'
          · have hdone := hread { s with guard := (r.addGuard .blank).2, excluded := blankConditions } rule'
              (r.addGuard .blank).1 hrule'
            have hadded := (Reading.Adds.addGuard r hQ.blank).trans hdone.reading
            simp only
            split
            · exact hadded
            · exact hadded.trans (adds_readForEach _ _ hvs hdone.left)
      · split
        · exact hcopies
        · have hparsed := hread ⟨0, blankConditions, false⟩ rule r hrule
          simp only
          split
          · exact .refl r
          · rename_i body guard houtcome
            obtain ⟨hbody, hguard⟩ := hparsed.outcome _ houtcome
            split
            · exact .refl r
            · rename_i body' guard' heach
              obtain ⟨hbody', hguard'⟩ : body'.AllWords P ∧ Q guard' := by
                cases hmark : markIfIn v body with
                | error e => rw [hmark] at heach; cases heach
                | ok b =>
                  cases hpositive : markEach v guard.positive with
                  | error e => rw [hmark, hpositive] at heach; cases heach
                  | ok positive =>
                    cases hnegative : markEach v guard.negative with
                    | error e => rw [hmark, hpositive, hnegative] at heach; cases heach
                    | ok negative =>
                      rw [hmark, hpositive, hnegative] at heach
                      cases heach
                      exact ⟨allWords_markIfIn hP hv hbody hmark, hQ.marked hguard hv hquestion hpositive hnegative⟩
              have hdone := hread { s with guard := (r.addGuard guard').2 } body' (r.addGuard guard').1 hbody'
              have hadded := (Reading.Adds.addGuard r hguard').trans hdone.reading
              split
              · exact hadded
              · exact hadded.trans (adds_readForEach _ _ hvs hparsed.left)
          · exact adds_readForEach _ r hvs hparsed.left
        · exact hcopies
    · exact adds_readForEach _ r hvs hrule

omit hQ hread in
theorem allWords_quantifierHead {s : Scope} {head vars : Tree} {excluded : List Tree} (hhead : head.AllWords P)
    (h : quantifierHead place s head = .ok (vars, excluded)) : vars.AllWords P := by
  simp only [quantifierHead, bind, Except.bind] at h
  split at h
  · cases h
  · split at h
    · split at h
      · rename_i v agents hdrop
        have hv := hP.items hhead v (List.mem_of_mem_drop (hdrop ▸ List.mem_cons_self))
        split at h
        · cases h
        · split at h <;> cases h
          exact hv
      · cases h
    · split at h
      · cases h
      · split at h <;> cases h
        exact hhead

theorem adds_readForall {s : Scope} {parts : List Tree} (r : Reading) (hparts : ∀ t ∈ parts, t.AllWords P) :
    (readForall place read s parts r).Adds P Q r := by
  rcases parts with _ | ⟨head, parts⟩
  · exact .stopped r (Tree.allWords_list.2 hparts)
  obtain ⟨hhead, hparts⟩ := List.forall_mem_cons.1 hparts
  unfold readForall
  simp only
  split
  · exact .stopped r (Tree.allWords_list.2 hparts)
  · rename_i vars excluded hquantifier
    rcases parts with _ | ⟨rule, parts⟩
    · exact .stopped r (Tree.allWords_list.2 hparts)
    obtain ⟨hrule, hparts⟩ := List.forall_mem_cons.1 hparts
    have hvars := hP.items (allWords_quantifierHead hP hhead hquantifier)
    refine ⟨adds_readForEach hP hQ hread 0 r hvars hrule, Tree.allWords_list.2 hparts, fun m hm => ?_⟩
    simp only at hm
    cases hout : (readForEach read { s with excluded } vars.items rule 0 r).2 with
    | error e => rw [hout] at hm; cases hm
    | ok k => rw [hout] at hm; cases hm; trivial

omit hread in
/-- **Reading an effect does not leave the classes.** -/
theorem readsWithin_readWithin (place : Place) : ∀ fuel, ReadsWithin P Q (readWithin place fuel)
  | 0 => fun s t r ht => .stopped r ht
  | fuel + 1 => fun s t r ht => by
    have hread := readsWithin_readWithin place fuel
    rcases t with w | ⟨_ | ⟨head, parts⟩⟩
    · exact .stopped r ht
    · exact .stopped r ht
    have hparts := (List.forall_mem_cons.1 (Tree.allWords_list.1 ht)).2
    unfold readWithin
    split
    · obtain ⟨hreading, hleft, houtcome⟩ := adds_readEach (hread s) r hparts
      refine ⟨hreading, Tree.allWords_list.2 hleft, fun m hm => ?_⟩
      simp only at hm
      cases hout : (readEach (readWithin place fuel s) parts r).outcome with
      | error e => rw [hout] at hm; cases hm
      | ok ms =>
        rw [hout] at hm
        cases hm
        exact Meaning.written_conjoin (houtcome ms hout)
    · exact adds_readWhen hP hQ hread r hparts
    · split
      · exact adds_readForall hP hQ hread r hparts
      · exact .stopped r ht
    · split
      · rename_i atom
        have hatom := hparts atom (by simp)
        exact ⟨.addNegative r s hatom, ht, fun m hm => by cases hm; exact hatom⟩
      · exact .stopped r ht
    · exact ⟨.addPositive r s ht, ht, fun m hm => by cases hm; exact ⟨List.cons_ne_nil head parts, ht⟩⟩

omit hread in
/-- **What a clause adds is in the classes.** -/
theorem adds_readClause {t : Tree} (r : Reading) (ht : t.AllWords P) : r.Adds P Q (readClause place t r).reading :=
  (Reading.Adds.addGuard r hQ.blank).trans (readsWithin_readWithin hP hQ place _ _ t _ ht).reading

omit hP hQ hread in
theorem allWords_readClause (hP : EffectClass P) {t : Tree} {r : Reading} (ht : t.AllWords P) (hr : r.AllWords P) :
    (readClause place t r).reading.AllWords P :=
  (adds_readClause hP.toReadClass (guardClass_written hP.toReadClass) r ht).allWords hP.empty hr

end
end Epistemic
