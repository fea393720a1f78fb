import Epistemic.Proofs.AlikeGuards
import Epistemic.Proofs.MarkedTexts
/-!
# Conditions for deriving beliefs

Agents that observe under a quantifier derive their beliefs under the condition that is asked of them: always if nothing
is asked, under a condition or its denial if that is all, and more cannot be said (`Intended`).  What is written follows
the number of conditions of one sign before it looks at the others.  So it is the intended one exactly if something is
asked, a single condition that is to hold stands alone, and a single one that is denied does not stand beside several
(`derivation_intended_iff`).
-/
namespace Epistemic
namespace Pdkb

open Source (IsPlainWord)

/-- What is to be written for the conditions that are to hold and those that are denied. -/
def Intended : (positive negative : List Tree) → Except Fault String → Prop
  | [], [], r => r = .ok "always"
  | [c], [], r => r = onAgent c
  | [], [c], r => r = (onAgent c).map ("!" ++ ·)
  | _, _, r => ∃ why, r = .error (.refused why)

/-! ## Formulas -/

def Unrefused {α : Type} (r : Except Fault α) : Prop := ∀ why, r ≠ .error (.refused why)

theorem unrefused_ok {α : Type} (a : α) : Unrefused (.ok a) := fun _ heq => by cases heq

/-- A fault that is no refusal is none wherever it is passed on. -/
theorem Unrefused.fault {α β : Type} {r : Except Fault α} (h : Unrefused r) {e : Fault} (he : r = .error e) :
    Unrefused (.error e : Except Fault β) := fun why heq => h why (he.trans (congrArg _ (Except.error.inj heq)))

theorem Unrefused.map {α β : Type} {r : Except Fault α} (h : Unrefused r) (f : α → β) : Unrefused (r.map f) := by
  cases r with
  | ok a => exact unrefused_ok (f a)
  | error e => exact h.fault rfl

theorem unrefused_sign (keep : Bool) (t : Tree) : Unrefused (sign keep t) := by
  intro why heq
  unfold sign at heq
  split at heq
  · split at heq <;> cases heq
  · cases heq

theorem unrefused_operator? (t : Tree) : Unrefused (operator? t) := by
  intro why heq
  unfold operator? at heq
  split at heq
  · split at heq <;> cases heq
  · cases heq

mutual
theorem unrefused_formulaFrom (keep : Bool) : ∀ (skip opened : Nat) (behind : Bool) (ts : List Tree),
    Unrefused (formulaFrom keep skip opened behind ts)
  | _, opened, _, [] => by
    rw [formulaFrom]
    exact unrefused_ok _
  | skip + 1, opened, behind, _ :: ts => by
    rw [formulaFrom]
    exact unrefused_formulaFrom keep skip opened behind ts
  | 0, opened, behind, t :: ts => by
    rw [formulaFrom]
    split
    · rename_i e he
      exact (unrefused_sign keep t).fault he
    · rename_i t' ht'
      split
      · rename_i e he
        exact (unrefused_operator? t').fault he
      · exact (unrefused_formulaFrom keep 0 _ false ts).map _
      · split
        · rename_i e he
          exact (unrefused_behindOperator keep ts).fault he
        · exact (unrefused_formulaFrom keep _ opened true ts).map _
theorem unrefused_behindOperator (keep : Bool) : ∀ ts : List Tree, Unrefused (behindOperator keep ts)
  | [] => by
    rw [behindOperator]
    exact fun why heq => by cases heq
  | t :: _ => by
    rw [behindOperator]
    exact unrefused_enclosed keep t
theorem unrefused_enclosed (keep : Bool) : ∀ t : Tree, Unrefused (enclosed keep t)
  | .word _ => by
    rw [enclosed]
    exact unrefused_ok _
  | .list inner => by
    rw [enclosed]
    exact (unrefused_formulaFrom keep 0 0 true inner).map _
end

theorem unrefused_formula (t : Tree) : Unrefused (formula t) := unrefused_formulaFrom false 0 0 false t.items

theorem unrefused_onAgent (c : Tree) : Unrefused (onAgent c) := (unrefused_formula c).map _

theorem ne_empty_of_isOnLine {t : Tree} (h : t.AllWords Source.IsOnLine) : t ≠ .word "" := by
  rintro rfl
  exact h.1 rfl

theorem respelled_ne_empty {w : String} (h : w ≠ "") : respelled w ≠ "" :=
  ofList_ne_empty (mt List.map_eq_nil_iff.1 fun hnil => h (String.toList_inj.1 hnil))

theorem operator?_ne_empty {t : Tree} {op : String} (h : operator? t = .ok (some op)) : op ≠ "" := by
  unfold operator? at h
  split at h
  · split at h
    · cases h
      exact ofList_ne_empty (List.append_ne_nil_of_right_ne_nil _ (by decide))
    · cases h
  · cases h

theorem map_ne_empty {r : Except Fault String} {f : String → String} (hf : ∀ s, f s ≠ "") : r.map f ≠ .ok "" := by
  cases r with
  | error e => exact fun h => by cases h
  | ok s => exact fun h => hf s (Except.ok.inj h)

/-- **A formula in words of the text is not written as nothing.** -/
theorem formula_ne_empty {c : Tree} (hwords : c.AllWords Source.IsOnLine) (hitems : c.items ≠ []) :
    formula c ≠ .ok "" := by
  obtain ⟨x, xs, hlist⟩ := List.exists_cons_of_ne_nil hitems
  have hx := readClass_isOnLine.items hwords x (hlist ▸ List.mem_cons_self)
  -- the first item stands in the text, as an operator or as it is shown
  rw [formula, hlist, formulaFrom]
  split
  · exact fun h => by cases h
  · rename_i t hsign
    have ht : t ≠ .word "" := by
      cases x with
      | word w =>
        rw [sign_eq] at hsign
        cases hsign
        exact fun heq => respelled_ne_empty hx.1 (Tree.word.inj heq)
      | list ys =>
        rintro rfl
        unfold sign at hsign
        split at hsign <;> cases hsign
    split
    · exact fun h => by cases h
    · exact map_ne_empty fun rest => append_ne_empty (append_ne_empty (append_ne_empty_right (Tree.shown_ne_empty ht)))
    · rename_i op hop
      split
      · exact fun h => by cases h
      · exact map_ne_empty fun rest => append_ne_empty (append_ne_empty (operator?_ne_empty hop))

/-! ## Guards -/

theorem ne_blank_of_isOnLine {cs : List Tree} (h : ∀ c ∈ cs, c.AllWords Source.IsOnLine) : cs ≠ blankConditions := by
  rintro rfl
  exact ne_empty_of_isOnLine (Tree.allWords_list.1 (h _ List.mem_cons_self) _ List.mem_cons_self) rfl

/-- What is written where no single condition is to hold, by the number of those that are. -/
def denialText (count : Nat) : List Tree → Except Fault String
  | [c] => (onAgent c).map ("!" ++ ·)
  | negative =>
    if 1 < count || 1 < negative.length then .error (.refused .severalConditions)
    else .error (.refused .strangeCondition)

theorem derivationText_single {c : Tree} (hc : formula c ≠ .ok "") (negative : List Tree) :
    derivationText ⟨[c], negative⟩ = if negative = [c] then (formula c).map fun _ => "always" else onAgent c := by
  cases htext : formula c with
  | error e => simp [derivationText, onAgent, htext, Except.map, bind, Except.bind]
  | ok text =>
    have hne : text ≠ "" := fun h => hc (by rw [htext, h])
    by_cases hsame : negative = [c]
    · simp [derivationText, htext, hne, hsame, bind, Except.bind, Except.map, pure, Except.pure]
    · have hother : [c] ≠ negative := fun h => hsame h.symm
      simp [derivationText, htext, hne, hsame, hother, bind, Except.bind, pure, Except.pure]

theorem derivationText_denial {positive : List Tree} (h : positive = blankConditions ∨ positive.length ≠ 1)
    (negative : List Tree) : derivationText ⟨positive, negative⟩ = denialText positive.length negative := by
  have hblank : formula (.list [.word ""]) = .ok "" := by decide
  unfold derivationText
  rcases h with rfl | h
  · rcases negative with _ | ⟨c, _ | ⟨d, negative⟩⟩ <;>
      simp [denialText, blankConditions, hblank, bind, Except.bind, pure, Except.pure]
  · rcases positive with _ | ⟨p, _ | ⟨q, positive⟩⟩
    · rcases negative with _ | ⟨c, _ | ⟨d, negative⟩⟩ <;> simp [denialText, bind, Except.bind, pure, Except.pure]
    · exact absurd rfl h
    · rcases negative with _ | ⟨c, _ | ⟨d, negative⟩⟩ <;> simp [denialText, bind, Except.bind, pure, Except.pure]

theorem denialText_one (negative : List Tree) : denialText 1 negative = denialText 0 negative := by
  rcases negative with _ | ⟨c, _ | ⟨d, negative⟩⟩ <;> rfl

/-- **What is written for a guard** of a task that was read: its conditions that are not blank decide, unless there are
none. -/
theorem derivationText_eq {g : Guard} (hstated : g.Stated Source.IsOnLine) (hwritten : g.Written Source.IsOnLine) :
    (∀ c, withoutBlank g.positive = [c] → derivationText g =
      if withoutBlank g.negative = [c] then (formula c).map fun _ => "always" else onAgent c) ∧
    ((withoutBlank g.positive).length ≠ 1 → derivationText g =
      if withoutBlank g.positive = [] ∧ g.negative = blankConditions then .ok "!"
      else denialText (withoutBlank g.positive).length (withoutBlank g.negative)) := by
  obtain ⟨pos, neg⟩ := g
  obtain ⟨hfull, hlone⟩ := hstated
  simp only at hfull hlone ⊢
  by_cases hpos : pos = blankConditions
  · subst hpos
    have hnone : withoutBlank blankConditions = [] := if_pos rfl
    refine ⟨fun c hc => by simp [hnone] at hc, fun _ => ?_⟩
    rw [derivationText_denial (.inl rfl), hnone]
    by_cases hneg : neg = blankConditions
    · subst hneg
      decide
    · rw [if_neg fun h => hneg h.2, withoutBlank_of_ne hneg]
      exact denialText_one neg
  · rw [withoutBlank_of_ne hpos]
    refine ⟨fun c hc => ?_, fun hlength => ?_⟩
    · subst hc
      have hwords : c.AllWords Source.IsOnLine := (hwritten.positive.resolve_left hpos) c List.mem_cons_self
      rw [derivationText_single (formula_ne_empty hwords (hfull c List.mem_cons_self))]
      by_cases hneg : neg = blankConditions
      · have hnone : withoutBlank neg = [] := if_pos hneg
        rw [hnone, if_neg fun h => hpos (h.symm.trans hneg), if_neg (by simp)]
      · rw [withoutBlank_of_ne hneg]
    · -- a blank denial stands behind a single condition only
      have hneg : neg ≠ blankConditions := by
        rcases hlone with ⟨-, hone⟩ | hwords
        · exact absurd hone hlength
        · exact ne_blank_of_isOnLine hwords
      rw [derivationText_denial (.inr hlength), if_neg fun h => hneg h.2, withoutBlank_of_ne hneg]

/-- **When what is written is intended**: something is asked for, a single condition that is to hold stands alone, and a
single one that is denied does not stand beside several. -/
theorem intended_iff {g : Guard} (hstated : g.Stated Source.IsOnLine) (hwritten : g.Written Source.IsOnLine) :
    Intended (withoutBlank g.positive) (withoutBlank g.negative) (derivationText g) ↔
      ¬ (withoutBlank g.positive = [] ∧ withoutBlank g.negative = []) ∧
        ¬ ((withoutBlank g.positive).length = 1 ∧ withoutBlank g.negative ≠ []) ∧
      ¬ (2 ≤ (withoutBlank g.positive).length ∧ (withoutBlank g.negative).length = 1) := by
  obtain ⟨hsingle, hdenial⟩ := derivationText_eq hstated hwritten
  have hblank : withoutBlank g.negative ≠ [] → g.negative ≠ blankConditions := fun h heq => h (if_pos heq)
  rcases hP : withoutBlank g.positive with _ | ⟨p, _ | ⟨q, ps⟩⟩
  · -- nothing is to hold
    have htext := hdenial (by simp [hP])
    rcases hN : withoutBlank g.negative with _ | ⟨n, _ | ⟨m, ns⟩⟩
    · rw [htext, hP, hN]
      by_cases hneg : g.negative = blankConditions <;> simp [Intended, hneg, denialText]
    · have hneg := hblank (by simp [hN])
      simp [htext, hP, hN, hneg, Intended, denialText]
    · have hneg := hblank (by simp [hN])
      simp [htext, hP, hN, hneg, Intended, denialText]
  · -- one condition is to hold: what is denied is dropped
    have htext := hsingle p hP
    rcases hN : withoutBlank g.negative with _ | ⟨n, ns⟩
    · simp [htext, hN, Intended]
    · have hunrefused : Unrefused (derivationText g) := by
        rw [htext]
        split
        · exact (unrefused_formula p).map _
        · exact unrefused_onAgent p
      have hnot : ¬ Intended [p] (n :: ns) (derivationText g) := by
        rintro ⟨why, hwhy⟩
        exact hunrefused why hwhy
      simp [hnot]
  · -- several conditions are to hold: they are dropped before one that is denied
    have htext := hdenial (by simp [hP])
    rw [hP, if_neg (by simp)] at htext
    rcases hN : withoutBlank g.negative with _ | ⟨n, _ | ⟨m, ns⟩⟩
    · simp [htext, hN, Intended, denialText]
    · have hnot : ¬ Intended (p :: q :: ps) [n] (derivationText g) := by
        rintro ⟨why, hwhy⟩
        rw [htext, hN] at hwhy
        exact (unrefused_onAgent n).map _ why hwhy
      simp [hnot]
    · simp [htext, hN, Intended, denialText]

/-! ## Observers -/

/-- The names of clauses that stand under a quantifier, with the clause that each belongs to. -/
def quantifiedNames (full : List Entry) : List (Entry × Tree) :=
  full.flatMap fun e => (e.body.items.filter isMarked).map (e, ·)

/-- What is written of a condition: nothing if it cannot be. -/
def writtenText : Except Fault String → String
  | .ok text => text ++ ")\n"
  | .error _ => ""

theorem quantifiedNames_cons (e : Entry) (es : List Entry) :
    quantifiedNames (e :: es) = (e.body.items.filter isMarked).map (e, ·) ++ quantifiedNames es := List.flatMap_cons

theorem derivationOfEach_unquantified {es : List Entry} (h : quantifiedNames es = []) (visited : Bool) :
    derivationOfEach es visited = pure visited := by
  refine derivationOfEach_none (List.find?_eq_none.2 fun e he => ?_)
  have hnone := List.flatMap_eq_nil_iff.1 h e he
  simpa [isQuantified] using hnone

/-- **One quantified name decides**, whatever stands around it. -/
theorem derivationOfEach_single {e : Entry} {v : Tree} {es : List Entry} (h : quantifiedNames es = [(e, v)]) :
    isMarked v = true ∧ derivationOfEach es false = derivationOf e false v := by
  induction es with
  | nil => cases h
  | cons d es ih =>
    rw [quantifiedNames_cons] at h
    rw [derivationOfEach]
    rcases hmarked : d.body.items.filter isMarked with _ | ⟨w, ws⟩
    · rw [hmarked] at h
      rw [foldlM_derivationOf_plain (by simpa using hmarked), pure_bind]
      exact ih h
    · rw [hmarked, List.map_cons, List.cons_append, List.cons.injEq, List.append_eq_nil_iff, List.map_eq_nil_iff] at h
      obtain ⟨heq, rfl, hrest⟩ := h
      cases heq
      -- no name before it in the clause is marked, and none behind it
      obtain ⟨before, after, hitems, hbefore, hw, hafter⟩ := List.filter_eq_cons_iff.1 hmarked
      refine ⟨hw, ?_⟩
      have hbehind : ∀ visited, (after.foldlM (derivationOf e) visited >>= derivationOfEach es) = pure visited := by
        intro visited
        rw [foldlM_derivationOf_plain (by simpa using hafter), pure_bind, derivationOfEach_unquantified hrest]
      rw [hitems, List.foldlM_append, foldlM_derivationOf_plain (by simpa using hbefore), pure_bind, List.foldlM_cons,
        bind_assoc]
      simp only [hbehind, bind_pure]

/-- The guard of the only quantified name among full observers, if there is just one. -/
def soleGuard? (a : Action) : Option Guard :=
  match a.observers with
  | .groups _ => none
  | .levels full _ =>
    match quantifiedNames full with
    | [(e, _)] => some (guardAt a.guards e.guard)
    | _ => none

theorem soleGuard?_eq_some {a : Action} {g : Guard} (h : soleGuard? a = some g) : ∃ full inPart e v,
    a.observers = .levels full inPart ∧ quantifiedNames full = [(e, v)] ∧ g = guardAt a.guards e.guard := by
  unfold soleGuard? at h
  split at h
  · cases h
  · rename_i full inPart hobservers
    split at h
    · rename_i e v hone
      cases h
      exact ⟨full, inPart, e, v, hobservers, hone, rfl⟩
    · cases h

/-- **The condition for deriving beliefs is that of the only quantified name**, or printing stops there. -/
theorem perform_derivation {a : Action} {g : Guard} (hsole : soleGuard? a = some g) {sheet : Sheet}
    (hguards : sheet.guards = a.guards) : ∃ report, (derivation a).perform sheet =
      ((derivationText g).map fun _ => (),
        { sheet with text := sheet.text ++ derivationLabel ++ writtenText (derivationText g), report }) := by
  obtain ⟨full, inPart, e, v, hobservers, hone, rfl⟩ := soleGuard?_eq_some hsole
  obtain ⟨hv, hderivation⟩ := derivationOfEach_single hone
  obtain ⟨report, hreport⟩ := exists_perform_derivationOf (e := e) hv
  refine ⟨report sheet.report, ?_⟩
  -- the guard is looked up in the sheet, which has those of the action
  rw [derivation, Sheet.perform_write_bind, hobservers]
  simp only [hderivation]
  rw [Work.perform_bind, hreport, ← hguards]
  simp only
  cases derivationText (guardAt sheet.guards e.guard) with
  | error f => simp [Except.map, writtenText]
  | ok text => simp [Except.map, writtenText, String.append_assoc]

/-! ## The main result -/

/-- What is written where it is not intended: a mark alone or a refusal for nothing, the single condition that is to
hold, or `always` if the same is denied, and the single one that is denied. -/
structure Misread (g : Guard) : Prop where
  nothing : withoutBlank g.positive = [] → withoutBlank g.negative = [] →
    derivationText g = if g.negative = blankConditions then .ok "!" else .error (.refused .strangeCondition)
  single : ∀ c, withoutBlank g.positive = [c] → withoutBlank g.negative ≠ [] →
    derivationText g = if withoutBlank g.negative = [c] then (formula c).map fun _ => "always" else onAgent c
  several : ∀ c, 2 ≤ (withoutBlank g.positive).length → withoutBlank g.negative = [c] →
    derivationText g = (onAgent c).map ("!" ++ ·)

theorem misread {g : Guard} (hstated : g.Stated Source.IsOnLine) (hwritten : g.Written Source.IsOnLine) :
    Misread g := by
  obtain ⟨hsingle, hdenial⟩ := derivationText_eq hstated hwritten
  refine ⟨fun hP hN => ?_, fun c hP _ => hsingle c hP, fun c hP hN => ?_⟩
  · rw [hdenial (by simp [hP]), hP, hN]
    simp [denialText]
  · have hne : withoutBlank g.positive ≠ [] := fun h => by simp [h] at hP
    rw [hdenial (by omega), if_neg fun h => hne h.1, hN]
    rfl

/-- A condition with a variable of a quantifier in plain words is marked, and `$agent$` is written where the variable
stood first among its words; these are all its places exactly if it has no other. -/
def RendersFirst (v : String) (operators : List (List String)) (atom : List String) : Prop :=
  ∃ c, markIfIn (.word v) (conditionTree operators atom) = .ok c ∧
    onAgent c = .ok (firstText v "$agent$" operators atom) ∧
    (onAgent c = .ok (renamedText v "$agent$" operators atom) ↔ v ∉ operators.flatten ∧ atom.count v ≤ 1)

theorem rendersFirst {v : String} (hv : IsPlainWord v) (hquestion : '?' ∈ v.toList) {operators : List (List String)}
    (hoperators : ∀ as ∈ operators, ∀ a ∈ as, IsPlainWord a) {atom : List String} (hne : atom ≠ [])
    (hatom : ∀ w ∈ atom, IsPlainWord w) : RendersFirst v operators atom := by
  have htext := onAgent_marked hv hoperators hne hatom
  refine ⟨_, markIfIn_conditionTree (hv.not_mem (by decide)) operators atom, htext, ?_⟩
  rw [htext, Except.ok.injEq, firstText_eq_iff hquestion]

/-- **When the condition for deriving beliefs is the intended one.**  In an action of a task that was read, let one name
of the full observers stand under a quantifier.  Then the condition that its guard states is written, or printing
stops.  It is the intended one exactly if something is asked for, a single condition that is to hold stands alone, and a
single one that is denied does not stand beside several.  Otherwise conditions are dropped, and if there are none this
is not said.  Where one condition is written, `$agent$` stands in the first place of the variable. -/
theorem derivation_intended_iff {s : Session} (hs : Session.Parsed s) {d : Domain} (hd : s.task.domain = some d)
    {a : Action} (ha : a ∈ d.actions) {g : Guard} (hsole : soleGuard? a = some g) :
    (∀ sheet : Sheet, sheet.guards = a.guards → ∃ report, (derivation a).perform sheet =
      ((derivationText g).map fun _ => (),
        { sheet with text := sheet.text ++ derivationLabel ++ writtenText (derivationText g), report })) ∧
    (Intended (withoutBlank g.positive) (withoutBlank g.negative) (derivationText g) ↔
      ¬ (withoutBlank g.positive = [] ∧ withoutBlank g.negative = []) ∧
        ¬ ((withoutBlank g.positive).length = 1 ∧ withoutBlank g.negative ≠ []) ∧
      ¬ (2 ≤ (withoutBlank g.positive).length ∧ (withoutBlank g.negative).length = 1)) ∧
    Misread g ∧
    ∀ v operators atom, IsPlainWord v → '?' ∈ v.toList → (∀ as ∈ operators, ∀ b ∈ as, IsPlainWord b) → atom ≠ [] →
      (∀ w ∈ atom, IsPlainWord w) → RendersFirst v operators atom := by
  obtain ⟨full, inPart, e, v, -, -, rfl⟩ := soleGuard?_eq_some hsole
  have hstated : (guardAt a.guards e.guard).Stated Source.IsOnLine :=
    guardAt_of_forall (hs.statedGuards d hd a ha) ⟨by simp, .inr (by simp)⟩ e.guard
  have hwritten : (guardAt a.guards e.guard).Written Source.IsOnLine :=
    guardAt_of_forall (hs.writtenGuards d hd a ha) ⟨.inr (by simp), .inr (by simp)⟩ e.guard
  exact ⟨fun sheet hguards => perform_derivation hsole hguards, intended_iff hstated hwritten, misread hstated hwritten,
    fun v operators atom hv hquestion hoperators hne hatom => rendersFirst hv hquestion hoperators hne hatom⟩

/-- Every agent observes one action without a condition, and another under a condition beside one that is denied. -/
def watched : Session := Session.ofTexts .levels
  "(define (domain d) (:action look :observers (forall (?v) (?v)))
(:action turn :observers (forall (?v) (when (and (p ?v) (not (q ?v))) (?v)))))"
  "(define (problem r) (:domain d) (:agents a))"

theorem derivation_intended_iff_watched : Session.Parsed watched ∧ ∃ d look turn g₁ g₂, watched.task.domain = some d ∧
    d.actions = [look, turn] ∧ soleGuard? look = some g₁ ∧ soleGuard? turn = some g₂ ∧
    derivationText g₁ = .ok "!" ∧ ¬ Intended (withoutBlank g₁.positive) (withoutBlank g₁.negative) (derivationText g₁) ∧
    derivationText g₂ = .ok "p $agent$" ∧
      ¬ Intended (withoutBlank g₂.positive) (withoutBlank g₂.negative) (derivationText g₂) := by
  have hparsed : Session.Parsed watched := Session.parsed_ofTexts _ _ _
  have hguards : (watched.task.domain.any fun d => decide (d.actions.map soleGuard? =
      [some .blank,
        some ⟨[.list [.word "p", .word "FASTART?vFASTOP"]], [.list [.word "q", .word "FASTART?vFASTOP"]]⟩])) =
      true := by decide +kernel
  obtain ⟨d, hd, hmap⟩ := (Option.any_eq_true _ _).1 hguards
  obtain ⟨look, _, hactions, hlook, hrest⟩ := List.map_eq_cons_iff.1 (of_decide_eq_true hmap)
  obtain ⟨turn, _, rfl, hturn, hnil⟩ := List.map_eq_cons_iff.1 hrest
  obtain rfl := List.map_eq_nil_iff.1 hnil
  have hfirst := (derivation_intended_iff hparsed hd (hactions ▸ by simp) hlook).2.1
  have hsecond := (derivation_intended_iff hparsed hd (hactions ▸ by simp) hturn).2.1
  refine ⟨hparsed, d, look, turn, _, _, hd, hactions, hlook, hturn, by decide, fun h => ?_, by decide +kernel,
    fun h => ?_⟩
  · exact (hfirst.1 h).1 (by decide)
  · exact (hsecond.1 h).2.1 (by decide)

end Pdkb
end Epistemic
