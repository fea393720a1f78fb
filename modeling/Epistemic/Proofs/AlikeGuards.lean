import Epistemic.Pdkb.Document
import Epistemic.Proofs.Characters
import Epistemic.Proofs.ClearedGuards
import Epistemic.Proofs.Rendering
/-!
# Guards that are alike

PDKB clears the conditions of a guard before it prints them, so that guards that are the same when they have been
cleared are printed alike.  Only the condition for deriving beliefs is read from a guard as it stands: that of the first
clause of full observers that is quantified (`Pdkb.exists_derivationOfEach_some`).  Two tables of guards that are alike
therefore give the same text and the same outcome, unless the two guards of that clause state different conditions for
deriving beliefs (`Pdkb.printed_eq`, `Pdkb.printed_differs`).
-/
namespace Epistemic

/-! ## Related runs -/

namespace Work

variable {σ α β : Type} {R : σ → σ → Prop}

/-- Steps that have one outcome on related states, and reach related states. -/
def Respects (R : σ → σ → Prop) (w : Work σ α) : Prop :=
  ∀ s s', R s s' → (w.perform s).1 = (w.perform s').1 ∧ R (w.perform s).2 (w.perform s').2

theorem Respects.ofExcept (r : Except Fault α) : Respects R (Work.ofExcept r : Work σ α) := by
  intro s s' h
  rw [perform_ofExcept, perform_ofExcept]
  exact ⟨rfl, h⟩

theorem Respects.ofPure (a : α) : Respects R (pure a : Work σ α) := fun _ _ h => ⟨rfl, h⟩

theorem Respects.ofStop (e : Fault) : Respects R (Work.stop e : Work σ α) := fun _ _ h => ⟨rfl, h⟩

theorem Respects.bind {w : Work σ α} {f : α → Work σ β} (hw : Respects R w) (hf : ∀ a, Respects R (f a)) :
    Respects R (w >>= f) := by
  intro s s' h
  obtain ⟨houtcome, hstates⟩ := hw s s' h
  rcases hrun : w.perform s with ⟨outcome, t⟩
  rcases hrun' : w.perform s' with ⟨outcome', t'⟩
  rw [hrun, hrun'] at houtcome hstates
  cases houtcome
  cases outcome with
  | error e =>
    rw [perform_bind_error hrun, perform_bind_error hrun']
    exact ⟨rfl, hstates⟩
  | ok a =>
    rw [perform_bind_ok hrun, perform_bind_ok hrun']
    exact hf a t t' hstates

theorem Respects.each {f : β → Work σ Unit} (hf : ∀ b, Respects R (f b)) (bs : List β) :
    Respects R (Work.each f bs) := by
  induction bs with
  | nil => exact .ofPure ()
  | cons b bs ih => exact (hf b).bind fun _ => ih

theorem Respects.foldlM {f : α → β → Work σ α} (hf : ∀ a b, Respects R (f a b)) (bs : List β) :
    ∀ a, Respects R (bs.foldlM f a) := by
  induction bs with
  | nil => exact fun a => .ofPure a
  | cons b bs ih =>
    intro a
    rw [List.foldlM_cons]
    exact (hf a b).bind ih

end Work

open Work (Respects)

/-- Guards that are the same when they have been cleared. -/
structure Guard.Alike (g g' : Guard) : Prop where
  positive : tidy g.positive = tidy g'.positive
  negative : tidy g.negative = tidy g'.negative

theorem Guard.Alike.refl (g : Guard) : g.Alike g := ⟨rfl, rfl⟩

theorem Guard.Settled.alike {g : Guard} (h : g.Settled) : g.Alike g.tidied := ⟨h.positive.symm, h.negative.symm⟩

namespace Sheet

/-- Sheets with one text, which begins with a given one, and with guards that are alike. -/
structure Alike (start : String) (s s' : Sheet) : Prop where
  begins : ∃ rest, s.text = start ++ rest
  text : s.text = s'.text
  length : s.guards.length = s'.guards.length
  guards : ∀ i, (guardAt s.guards i).Alike (guardAt s'.guards i)

section
variable {start : String}

theorem Alike.refl (s : Sheet) : s.Alike s.text s := ⟨⟨"", by simp⟩, rfl, rfl, fun _ => .refl _⟩

theorem Alike.append {s s' : Sheet} (h : s.Alike start s') (t : String) :
    Alike start { s with text := s.text ++ t } { s' with text := s'.text ++ t } := by
  obtain ⟨rest, hrest⟩ := h.begins
  refine ⟨⟨rest ++ t, ?_⟩, congrArg (· ++ t) h.text, h.length, h.guards⟩
  rw [← String.append_assoc]
  exact congrArg (· ++ t) hrest

theorem respects_write (t : String) : Respects (Alike start) (write t) := fun _ _ h => ⟨rfl, h.append t⟩

theorem respects_say (t : String) : Respects (Alike start) (say t) :=
  fun _ _ h => ⟨rfl, h.begins, h.text, h.length, h.guards⟩

theorem respects_nameOf (t : Tree) : Respects (Alike start) (nameOf t) := by
  unfold nameOf
  split
  · exact .ofPure _
  · exact .ofStop _

end
end Sheet

namespace Pdkb

open Sheet

/-! ## Actions -/

theorem conditions_alike {positive first : Bool} {cs cs' : List Tree} (h : tidy cs = tidy cs') :
    conditions positive first cs = conditions positive first cs' := by
  rw [conditions, conditions, h]

/-- **Guards that are alike are printed alike.** -/
theorem guard_alike {g g' : Guard} (h : g.Alike g') :
    (guard g).text = (guard g').text ∧ (guard g).outcome = (guard g').outcome ∧
      (guard g).left.Alike (guard g').left := by
  have hpositive : ∀ first, conditions true first g.positive = conditions true first g'.positive :=
    fun _ => conditions_alike h.positive
  have hnegative : ∀ first, conditions false first g.negative = conditions false first g'.negative :=
    fun _ => conditions_alike h.negative
  have hboth : (printBoth conditions g).text = (printBoth conditions g').text ∧
      (printBoth conditions g).outcome = (printBoth conditions g').outcome ∧
      (printBoth conditions g).left.Alike (printBoth conditions g').left := by
    unfold printBoth
    simp only [hpositive, hnegative]
    split
    · exact ⟨rfl, rfl, rfl, h.negative⟩
    · exact ⟨rfl, rfl, .refl _⟩
  obtain ⟨htext, houtcome, hleft⟩ := hboth
  unfold guard
  simp only [← houtcome]
  split
  · exact ⟨congrArg (· ++ ")") htext, rfl, hleft⟩
  · exact ⟨htext, houtcome, hleft⟩

section
variable {start : String}

theorem respects_printGuard (i : Nat) : Respects (Alike start) (printGuard guard i) := by
  intro s s' h
  obtain ⟨htext, houtcome, hleft⟩ := guard_alike (h.guards i)
  rw [perform_printGuard, perform_printGuard, ← htext]
  have hwritten := h.append (guard (guardAt s.guards i)).text
  refine ⟨houtcome, hwritten.begins, hwritten.text, by simpa using h.length, fun j => ?_⟩
  simp only [guardAt_set, ← h.length]
  split
  · exact hleft
  · exact h.guards j

theorem respects_warn (lines : List String) : Respects (Alike start) (warn lines) :=
  (respects_say _).bind fun _ => (Respects.each respects_say lines).bind fun _ => respects_say _

theorem respects_parameterList (ps : List Tree) : Respects (Alike start) (parameterList ps) := by
  induction ps with
  | nil => exact .ofPure ()
  | cons p ps ih =>
    refine (Respects.ofExcept _).bind fun text => (respects_write _).bind fun _ => ?_
    split
    · exact ih
    · exact (respects_write _).bind fun _ => ih

theorem respects_parameters (a : Action) : Respects (Alike start) (parameters a) :=
  (respects_write _).bind fun _ => (respects_parameterList _).bind fun _ => respects_write _

theorem respects_copied (label : String) (t : Tree) : Respects (Alike start) (copied label t) := by
  unfold copied
  split
  · exact .ofPure _
  · exact (respects_write _).bind fun _ => (Respects.ofExcept _).bind fun _ => (respects_write _).bind fun _ =>
      (respects_write _).bind fun _ => .ofPure _

theorem respects_preconditions (a : Action) : Respects (Alike start) (preconditions a) := by
  have hone : ∀ sign c, Respects (Alike start) (precondition sign c) := fun sign c =>
    (Respects.ofExcept _).bind fun _ => respects_write _
  exact (respects_write _).bind fun _ => (Respects.each (hone _) _).bind fun _ =>
    (Respects.each (hone _) _).bind fun _ => respects_write _

theorem respects_beliefInPart (fluent ag : String) (e : Entry) (m : Marks) (other : Tree) :
    Respects (Alike start) (beliefInPart fluent ag e m other) := by
  unfold beliefInPart
  split
  · exact (respects_warn _).bind fun _ => .ofPure m
  · refine (respects_printGuard _).bind fun guarded => ?_
    have hrest : ∀ m : Marks, Respects (Alike start) (do
        let other ← nameOf other
        write (" [" ++ other ++ "][" ++ ag ++ "](or")
        write (" (" ++ fluent ++ ")")
        write (" (!" ++ fluent ++ "))")
        return m) := fun m =>
      (respects_nameOf other).bind fun _ => (respects_write _).bind fun _ => (respects_write _).bind fun _ =>
        (respects_write _).bind fun _ => .ofPure m
    split
    · exact (respects_write _).bind fun _ => hrest _
    · exact hrest _

theorem respects_beliefsInPart (fluent ag : String) (es : List Entry) :
    ∀ m, Respects (Alike start) (beliefsInPart fluent ag es m) := by
  induction es with
  | nil => exact fun m => .ofPure m
  | cons e es ih => exact fun m => (Respects.foldlM (respects_beliefInPart fluent ag e) _ m).bind ih

theorem respects_belief (positive : Bool) (fluent : String) (inPart : List Entry) (e : Entry) (m : Marks) (ag : Tree) :
    Respects (Alike start) (belief positive fluent inPart e m ag) := by
  unfold belief
  split
  · exact (respects_warn _).bind fun _ => .ofPure m
  · refine (respects_printGuard _).bind fun guarded => ?_
    have hrest : ∀ m : Marks, Respects (Alike start) (do
        let ag ← nameOf ag
        write (" [" ++ ag ++ "](")
        write (signText positive ++ fluent ++ ")")
        let m ← beliefsInPart fluent ag inPart m
        if m.inPartGuarded then
          write ")"
        return { m with inPartGuarded := false }) := by
      refine fun m => (respects_nameOf ag).bind fun ag => (respects_write _).bind fun _ =>
        (respects_write _).bind fun _ =>
        (respects_beliefsInPart fluent ag inPart m).bind fun m => ?_
      split
      · exact (respects_write _).bind fun _ => .ofPure _
      · exact .ofPure _
    split
    · exact (respects_write _).bind fun _ => hrest _
    · exact hrest _

theorem respects_beliefs (positive : Bool) (fluent : String) (inPart es : List Entry) :
    ∀ m, Respects (Alike start) (beliefs positive fluent inPart es m) := by
  induction es with
  | nil => exact fun m => .ofPure m
  | cons e es ih => exact fun m => (Respects.foldlM (respects_belief positive fluent inPart e) _ m).bind ih

theorem respects_observerEffects (positive ontic : Bool) (fluent : String) (o : Observers Entry) (m : Marks) :
    Respects (Alike start) (observerEffects positive ontic fluent o m) := by
  unfold observerEffects
  split
  · split
    · exact .ofPure m
    · exact .ofStop _
  · split
    · exact .ofPure m
    · exact .ofStop _
  · refine (respects_beliefs positive fluent _ _ m).bind fun m => ?_
    split
    · exact (respects_write _).bind fun _ => .ofPure _
    · exact .ofPure _
  · exact .ofStop _

theorem respects_effect (positive : Bool) (a : Action) (m : Marks) (e : Entry) :
    Respects (Alike start) (effect positive a m e) := by
  have hobservers : ∀ (ontic : Bool) (fluent : String) (m : Marks), Respects (Alike start) (do
      let m ← observerEffects positive ontic fluent a.observers m
      if m.guarded then
        write ")"
      return m) := by
    refine fun ontic fluent m => (respects_observerEffects positive ontic fluent a.observers m).bind fun m => ?_
    split
    · exact (respects_write _).bind fun _ => .ofPure m
    · exact .ofPure m
  have hrest : ∀ (ontic : Bool) (marks : Bool → Marks), Respects (Alike start) (do
      let fluent ← Work.ofExcept (formula e.body)
      let conditional ← printGuard guard e.guard
      if ontic then
        write (" (" ++ signText positive ++ fluent ++ ")")
      let m ← observerEffects positive ontic fluent a.observers (marks conditional)
      if m.guarded then
        write ")"
      return m) := by
    refine fun ontic marks => (Respects.ofExcept _).bind fun fluent =>
      (respects_printGuard _).bind fun conditional => ?_
    split
    · exact (respects_write _).bind fun _ => hobservers _ _ _
    · exact hobservers _ _ _
  unfold effect
  simp only
  split
  · exact (respects_write _).bind fun _ => hrest _ fun conditional => _
  · exact hrest _ fun conditional => _

theorem respects_effects (a : Action) : Respects (Alike start) (effects a) :=
  (respects_write _).bind fun _ => (Respects.foldlM (respects_effect true a) _ _).bind fun _ =>
    (Respects.foldlM (respects_effect false a) _ _).bind fun _ => respects_write _

/-- What is said about an action behind the condition for deriving beliefs. -/
def behindDerivation (a : Action) : Work Sheet Unit := do
  preconditions a
  unless ← explicitEffects a do
    effects a
  write "\t)\n;;;\n\n"

theorem respects_behindDerivation (a : Action) : Respects (Alike start) (behindDerivation a) := by
  refine (respects_preconditions a).bind fun _ => (respects_copied _ _).bind fun given => ?_
  split
  · exact respects_write _
  · exact (respects_effects a).bind fun _ => respects_write _

end

/-! ## The condition for deriving beliefs -/

def isQuantified (e : Entry) : Bool := e.body.items.any isMarked

/-- The clause that the condition for deriving beliefs is read from: the first of full observers that is quantified. -/
def quantifiedEntry (a : Action) : Option Entry :=
  match a.observers with
  | .levels full _ => full.find? isQuantified
  | .groups _ => none

section
variable {e : Entry} {visited : Bool}

theorem derivationOf_plain {ag : Tree} (h : isMarked ag = false) : derivationOf e visited ag = pure visited := by
  rw [derivationOf, if_neg (by simp [h])]

theorem foldlM_derivationOf_plain {ags : List Tree} (h : ∀ ag ∈ ags, isMarked ag = false) :
    ags.foldlM (derivationOf e) visited = pure visited := by
  induction ags with
  | nil => rfl
  | cons ag ags ih =>
    obtain ⟨hag, hags⟩ := List.forall_mem_cons.1 h
    rw [List.foldlM_cons, derivationOf_plain hag, pure_bind, ih hags]

/-- When a condition has been written, the names behind it are passed over or refused. -/
theorem exists_foldlM_derivationOf (ags : List Tree) :
    ∃ r : Except Fault Bool, ags.foldlM (derivationOf e) true = Work.ofExcept r ∧ ∀ b, r = .ok b → b = true := by
  induction ags with
  | nil => exact ⟨.ok true, rfl, by simp⟩
  | cons ag ags ih =>
    rw [List.foldlM_cons]
    by_cases hag : isMarked ag = true
    · refine ⟨.error (.refused .severalQuantified), ?_, by simp⟩
      rw [derivationOf, if_pos hag]
      rfl
    · obtain ⟨r, hr, hvisited⟩ := ih
      rw [derivationOf_plain (by simpa using hag), pure_bind]
      exact ⟨r, hr, hvisited⟩

theorem exists_derivationOfEach (es : List Entry) :
    ∃ r : Except Fault Bool, derivationOfEach es true = Work.ofExcept r ∧ ∀ b, r = .ok b → b = true := by
  induction es with
  | nil => exact ⟨.ok true, rfl, by simp⟩
  | cons e es ih =>
    obtain ⟨r, hr, hvisited⟩ := exists_foldlM_derivationOf (e := e) e.body.items
    rw [derivationOfEach, hr]
    cases r with
    | error f => exact ⟨.error f, rfl, by simp⟩
    | ok b =>
      obtain rfl := hvisited b rfl
      exact ih

theorem derivationOfEach_none {es : List Entry} (h : es.find? isQuantified = none) :
    derivationOfEach es visited = pure visited := by
  induction es with
  | nil => rfl
  | cons e es ih =>
    rw [List.find?_eq_none] at h
    obtain ⟨he, hes⟩ := List.forall_mem_cons.1 h
    have hplain : ∀ ag ∈ e.body.items, isMarked ag = false := by simpa [isQuantified] using he
    rw [derivationOfEach, foldlM_derivationOf_plain hplain, pure_bind, ih (List.find?_eq_none.2 hes)]

/-- A condition that was written counts as written. -/
theorem derivationOf_bind {β : Type} {ag : Tree} (hag : isMarked ag = true) (next : Bool → Work Sheet β) :
    (derivationOf e false ag >>= next) = (do let _ ← derivationOf e false ag; next true) := by
  simp only [derivationOf, if_pos hag, Bool.false_eq_true, if_false]
  split <;> simp only [bind_assoc, pure_bind]

theorem exists_foldlM_derivationOf_marked {ags : List Tree} (h : ags.any isMarked = true) :
    ∃ ag r, isMarked ag = true ∧ (∀ b, r = .ok b → b = true) ∧
      ags.foldlM (derivationOf e) false = (do let _ ← derivationOf e false ag; Work.ofExcept r) := by
  induction ags with
  | nil => cases h
  | cons ag ags ih =>
    rw [List.foldlM_cons]
    by_cases hag : isMarked ag = true
    · obtain ⟨r, hr, hvisited⟩ := exists_foldlM_derivationOf (e := e) ags
      exact ⟨ag, r, hag, hvisited, by rw [derivationOf_bind hag, hr]⟩
    · have hplain : isMarked ag = false := by simpa using hag
      rw [derivationOf_plain hplain, pure_bind]
      exact ih (by simpa [hplain] using h)

/-- **The condition for deriving beliefs is that of the first clause that is quantified.** -/
theorem exists_derivationOfEach_some {es : List Entry} (h : es.find? isQuantified = some e) :
    ∃ ag r, isMarked ag = true ∧ (∀ b, r = .ok b → b = true) ∧
      derivationOfEach es false = (do let _ ← derivationOf e false ag; Work.ofExcept r) := by
  induction es with
  | nil => cases h
  | cons d es ih =>
    rw [derivationOfEach]
    by_cases hd : isQuantified d = true
    · rw [List.find?_cons_of_pos hd] at h
      cases h
      obtain ⟨ag, r, hag, hvisited, hfold⟩ := exists_foldlM_derivationOf_marked (e := e) hd
      obtain ⟨r', hr', hvisited'⟩ := exists_derivationOfEach es
      cases r with
      | error f => exact ⟨ag, .error f, hag, hvisited, by rw [hfold, bind_assoc]; rfl⟩
      | ok b =>
        obtain rfl := hvisited b rfl
        refine ⟨ag, r', hag, hvisited', ?_⟩
        rw [hfold, bind_assoc, ← hr']
        rfl
    · rw [List.find?_cons_of_neg hd] at h
      have hplain : ∀ ag ∈ d.body.items, isMarked ag = false := by simpa [isQuantified] using hd
      rw [foldlM_derivationOf_plain hplain, pure_bind]
      exact ih h

theorem exists_perform_warn (lines : List String) : ∃ report : String → String, ∀ sheet : Sheet,
    (warn lines).perform sheet = (.ok (), { sheet with report := report sheet.report }) := by
  have hlines : ∀ sheet : Sheet, (Work.each say lines).perform sheet =
      (.ok (), { sheet with report := lines.foldl (fun report line => report ++ line ++ "\n") sheet.report }) := by
    induction lines with
    | nil => exact fun _ => rfl
    | cons line lines ih => exact fun sheet => ih { sheet with report := sheet.report ++ line ++ "\n" }
  refine ⟨fun report => lines.foldl (fun report line => report ++ line ++ "\n")
    (report ++ "\n********CONVERSION WARNING********" ++ "\n") ++ "**********************************\n" ++ "\n",
    fun sheet => ?_⟩
  rw [warn, say, Work.perform_bind_ok (Work.perform_modify _ sheet), Work.perform_bind_ok (hlines _)]
  rfl

/-- What one quantified name writes: the condition that its guard states, if it states one. -/
theorem exists_perform_derivationOf {ag : Tree} (hag : isMarked ag = true) :
    ∃ report : String → String, ∀ sheet : Sheet,
      (derivationOf e false ag).perform sheet = match derivationText (guardAt sheet.guards e.guard) with
      | .error f => (.error f, { sheet with report := report sheet.report })
      | .ok text => (.ok true, { sheet with
          text := sheet.text ++ text ++ ")\n"
          report := report sheet.report }) := by
  have hwritten : ∀ sheet : Sheet, (do
      write (← Work.ofExcept (derivationText (← Sheet.guard e.guard)))
      write ")\n"
      return true).perform sheet = match derivationText (guardAt sheet.guards e.guard) with
        | .error f => (.error f, sheet)
        | .ok text => (.ok true, { sheet with text := sheet.text ++ text ++ ")\n" }) := by
    intro sheet
    rw [Sheet.perform_guard_bind]
    cases derivationText (guardAt sheet.guards e.guard) <;> rfl
  simp only [derivationOf, if_pos hag, Bool.false_eq_true, if_false]
  split
  · exact ⟨id, hwritten⟩
  · obtain ⟨report, hreport⟩ := exists_perform_warn
      ["The 'diff' operator cannot be directly translated to PDKB and therefore will be ignored.",
        "You should make use of the more explicit fields."]
    refine ⟨report, fun sheet => ?_⟩
    rw [Work.perform_bind_ok (hreport sheet)]
    exact hwritten { sheet with report := report sheet.report }

/-! ## Printed actions -/

/-- How printing an action goes, and the text that it leaves. -/
def printed (a : Action) : Except Fault Unit × String :=
  (((action a).perform { guards := a.guards }).1, ((action a).perform { guards := a.guards }).2.text)

theorem action_of_given {a : Action} (h : a.derivation.items ≠ []) : action a = (do
    write (";;;Action " ++ a.name ++ "\n\n")
    write ("\t(:action " ++ a.name ++ "\n")
    parameters a
    let _ ← explicitDerivation a
    behindDerivation a) := by
  have hgiven : ∀ next : Bool → Work Sheet Unit, (explicitDerivation a >>= next) =
      (do let _ ← explicitDerivation a; next true) := by
    intro next
    simp only [explicitDerivation, copied, List.isEmpty_iff, if_neg h, bind_assoc, pure_bind]
  rw [action, hgiven]
  rfl

theorem action_of_derived {a : Action} (h : a.derivation.items = []) : action a = (do
    write (";;;Action " ++ a.name ++ "\n\n")
    write ("\t(:action " ++ a.name ++ "\n")
    parameters a
    derivation a
    behindDerivation a) := by
  have hnone : explicitDerivation a = pure false := by simp [explicitDerivation, copied, h]
  rw [action, hnone]
  rfl

end

/-- **An action whose condition for deriving beliefs is read from no guard is printed alike.** -/
theorem respects_action {a : Action} {start : String} (h : a.derivation.items = [] → quantifiedEntry a = none) :
    Respects (Alike start) (action a) := by
  by_cases hitems : a.derivation.items = []
  · have hderivation : Respects (Alike start) (derivation a) := by
      have hnone := h hitems
      unfold quantifiedEntry at hnone
      unfold derivation
      refine (respects_write _).bind fun _ => ?_
      have hclose : ∀ visited : Bool, Respects (Alike start) (if visited then pure () else write "never)\n") := by
        intro visited
        split
        · exact .ofPure ()
        · exact respects_write _
      split
      · rename_i full inPart hobservers
        rw [hobservers] at hnone
        rw [derivationOfEach_none hnone]
        exact (Respects.ofPure false).bind hclose
      · split
        · exact (Respects.ofStop _).bind hclose
        · exact (Respects.ofPure false).bind hclose
    rw [action_of_derived hitems]
    exact (respects_write _).bind fun _ => (respects_write _).bind fun _ => (respects_parameters a).bind fun _ =>
      hderivation.bind fun _ => respects_behindDerivation a
  · rw [action_of_given hitems]
    exact (respects_write _).bind fun _ => (respects_write _).bind fun _ => (respects_parameters a).bind fun _ =>
      (respects_copied _ _).bind fun _ => respects_behindDerivation a

/-- **Where the condition for deriving beliefs is read from a guard**, printing an action without parameters stops
there, or goes on behind it. -/
theorem perform_action_of_some {a : Action} {e : Entry} (hparameters : a.parameters = [])
    (hitems : a.derivation.items = []) (he : quantifiedEntry a = some e) :
    ∃ (head report : String) (back : Work Sheet Unit), (∀ start, Respects (Alike start) back) ∧ ∀ guards,
      (action a).perform { guards } = match derivationText (guardAt guards e.guard) with
        | .error f => (.error f, { text := head, report, guards })
        | .ok text => back.perform { text := head ++ text ++ ")\n", report, guards } := by
  have hfull : ∃ full inPart, a.observers = .levels full inPart ∧ full.find? isQuantified = some e := by
    unfold quantifiedEntry at he
    split at he
    · rename_i full inPart hobservers
      exact ⟨full, inPart, hobservers, he⟩
    · cases he
  obtain ⟨full, inPart, hobservers, hfind⟩ := hfull
  obtain ⟨ag, r, hag, hvisited, heach⟩ := exists_derivationOfEach_some hfind
  obtain ⟨report, hperform⟩ := exists_perform_derivationOf (e := e) hag
  refine ⟨";;;Action " ++ a.name ++ "\n\n" ++ ("\t(:action " ++ a.name ++ "\n") ++ "\t\t:parameters\t\t\t (" ++ ")\n" ++
    derivationLabel, report "", (do let _ ← Work.ofExcept r; behindDerivation a), fun start =>
      (Respects.ofExcept r).bind fun _ => respects_behindDerivation a, fun guards => ?_⟩
  have hderivation : derivation a = (do
      write derivationLabel
      let _ ← derivationOf e false ag
      let _ ← Work.ofExcept r
      return ()) := by
    rw [derivation, hobservers]
    -- something was written, so `never` is not
    simp only [heach, bind_assoc]
    cases r with
    | error f => rfl
    | ok b =>
      obtain rfl := hvisited b rfl
      rfl
  have hnone : parameters a = (do write "\t\t:parameters\t\t\t ("; write ")\n") := by
    rw [parameters, hparameters]
    rfl
  rw [action_of_derived hitems, hderivation, hnone]
  simp only [bind_assoc, pure_bind]
  simp only [Sheet.perform_write_bind]
  rw [Work.perform_bind, hperform]
  cases derivationText (guardAt guards e.guard) <;> simp

/-! ## Differences -/

theorem oneLine_of_areWritten {cs : List Tree} (h : AreWritten Source.IsOnLine cs) {c : Tree} (hc : c ∈ cs) :
    ∀ x ∈ c.items, x.AllWords OneLine := by
  rcases h with rfl | h
  · rw [List.mem_singleton.1 hc]
    simp only [Tree.items, List.mem_singleton, forall_eq]
    exact (by decide : OneLine "")
  · intro x hx
    exact (readClass_isOnLine.items (h c hc) x hx).imp fun w hw => oneLine_iff.2 hw.2

theorem oneLine_onAgent {cs : List Tree} (h : AreWritten Source.IsOnLine cs) {c : Tree} (hc : c ∈ cs) {text : String}
    (htext : onAgent c = .ok text) : OneLine text := by
  unfold onAgent at htext
  cases hformula : formula c with
  | error f =>
    rw [hformula] at htext
    cases htext
  | ok t =>
    rw [hformula] at htext
    cases htext
    exact oneLine_fillMarks (by decide) (oneLine_formula (oneLine_of_areWritten h hc) hformula)

/-- A condition for deriving beliefs is made of one condition of the guard. -/
theorem derivationText_ok {g : Guard} {text : String} (h : derivationText g = .ok text) :
    text = "always" ∨ (∃ c ∈ g.positive, onAgent c = .ok text) ∨
      ∃ c ∈ g.negative, ∃ inner, onAgent c = .ok inner ∧ text = "!" ++ inner := by
  have hnegated : ∀ c, (onAgent c).map ("!" ++ ·) = .ok text →
      ∃ inner, onAgent c = .ok inner ∧ text = "!" ++ inner := by
    intro c h
    cases hinner : onAgent c <;> rw [hinner] at h <;> cases h
    exact ⟨_, rfl, rfl⟩
  unfold derivationText at h
  simp only at h
  split at h
  · rename_i c hpositive
    obtain ⟨formulaText, -, hfound⟩ := except_bind_eq_ok.1 h
    obtain ⟨single, hsingle, hlast⟩ := except_bind_eq_ok.1 hfound
    cases single with
    | some d =>
      obtain rfl : d = c := by
        split at hsingle <;> cases hsingle
        rfl
      simp only at hlast
      split at hlast
      · cases hlast
        exact .inl rfl
      · exact .inr (.inl ⟨d, hpositive ▸ List.mem_cons_self, hlast⟩)
    | none =>
      simp only at hlast
      split at hlast
      · rename_i c hnegative
        exact .inr (.inr ⟨c, hnegative ▸ List.mem_cons_self, hnegated c hlast⟩)
      · split at hlast <;> cases hlast
  · obtain ⟨single, hsingle, hlast⟩ := except_bind_eq_ok.1 h
    cases hsingle
    simp only at hlast
    split at hlast
    · rename_i c hnegative
      exact .inr (.inr ⟨c, hnegative ▸ List.mem_cons_self, hnegated c hlast⟩)
    · split at hlast <;> cases hlast

/-- The condition for deriving beliefs that a guard of a text states stands on one line. -/
theorem oneLine_derivationText {g : Guard} (hg : g.Written Source.IsOnLine) {text : String}
    (h : derivationText g = .ok text) : OneLine text := by
  rcases derivationText_ok h with rfl | ⟨c, hc, htext⟩ | ⟨c, hc, inner, hinner, rfl⟩
  · decide
  · exact oneLine_onAgent hg.positive hc htext
  · exact OneLine.append (by decide) (oneLine_onAgent hg.negative hc hinner)

/-- Results that can be told apart: by their texts, or by what stopped them. -/
def Differ (r r' : Except Fault Unit × String) : Prop :=
  r.2 ≠ r'.2 ∨ ∃ f f', r.1 = .error f ∧ r'.1 = .error f' ∧ f ≠ f'

/-- What is printed, and behind it what is printed next, unless something stopped it. -/
def andThen (r next : Except Fault Unit × String) : Except Fault Unit × String :=
  match r.1 with
  | .ok () => (next.1, r.2 ++ next.2)
  | .error f => (.error f, r.2)

theorem andThen_begins (r next : Except Fault Unit × String) : ∃ rest, (andThen r next).2 = r.2 ++ rest := by
  unfold andThen
  split
  · exact ⟨next.2, rfl⟩
  · exact ⟨"", by simp⟩

/-- Two lines that are not the same are told apart whatever follows them. -/
theorem append_line_ne {head t t' m m' : String} (ht : OneLine t) (ht' : OneLine t') (hne : t ≠ t') :
    head ++ t ++ ")\n" ++ m ≠ head ++ t' ++ ")\n" ++ m' := by
  intro heq
  have hlists := congrArg String.toList heq
  simp only [String.toList_append, List.append_assoc, List.append_cancel_left_eq] at hlists
  have hline : ∀ {s : String}, OneLine s → '\n' ∉ s.toList ++ [')'] := fun hs => by simpa using oneLine_iff.1 hs
  have hsplit : (t.toList ++ [')']) ++ '\n' :: m.toList = (t'.toList ++ [')']) ++ '\n' :: m'.toList := by
    simpa using hlists
  -- the first line ends where the first newline stands
  have hfirst := (Source.eq_of_append_cons (hline ht) (hline ht') hsplit).1
  exact hne (String.toList_inj.1 (List.append_cancel_right hfirst))

end Pdkb

/-- An action that is printed in PDKB otherwise when it has been printed in mAp: without parameters it is printed in mAp
as it stands in the task, and what that leaves of a guard states another condition for deriving beliefs. -/
structure Action.Disturbed (dialect : Dialect) (groups : List Tree) (a : Action) : Prop where
  parameters : a.parameters = []
  derivation : a.derivation.items = []
  quantified : ∃ e, Pdkb.quantifiedEntry a = some e ∧ MAp.ClearsAt dialect groups a e.guard ∧
    Pdkb.derivationText (guardAt a.guards e.guard).tidied ≠ Pdkb.derivationText (guardAt a.guards e.guard)

instance (dialect : Dialect) (groups : List Tree) (a : Action) : Decidable (a.Disturbed dialect groups) :=
  decidable_of_iff (a.parameters = [] ∧ a.derivation.items = [] ∧
      ∃ e ∈ Pdkb.quantifiedEntry a, MAp.ClearsAt dialect groups a e.guard ∧
        Pdkb.derivationText (guardAt a.guards e.guard).tidied ≠ Pdkb.derivationText (guardAt a.guards e.guard))
    ⟨fun ⟨hparameters, hitems, he⟩ => ⟨hparameters, hitems, he⟩,
      fun h => ⟨h.parameters, h.derivation, h.quantified⟩⟩

namespace Pdkb

theorem Cleared.alike {places : Nat → Prop} {guards left : List Guard} (h : Cleared places guards left) :
    Sheet.Alike "" { guards } { guards := left } where
  begins := ⟨"", rfl⟩
  text := rfl
  length := h.length.symm
  guards i := by
    by_cases hi : places i
    · obtain ⟨htidied, hsettled⟩ := h.inside i hi
      simp only [htidied]
      exact hsettled.alike
    · simp only [h.outside i hi]
      exact .refl _

section
variable {dialect : Dialect} {groups : List Tree} {a : Action} {left : List Guard}
  (hcleared : Cleared (MAp.ClearsAt dialect groups a) a.guards left)
include hcleared

/-- **An action that is not disturbed is printed as before.** -/
theorem printed_eq (hparameters : a.parameters = []) (h : ¬ a.Disturbed dialect groups) :
    printed { a with guards := left } = printed a := by
  have halike := Cleared.alike hcleared
  suffices hruns : ((action a).perform { guards := left }).1 = ((action a).perform { guards := a.guards }).1 ∧
      ((action a).perform { guards := left }).2.text = ((action a).perform { guards := a.guards }).2.text from
    Prod.ext hruns.1 hruns.2
  have hrespects : ∀ {w : Work Sheet Unit} {s s' : Sheet}, Respects (Sheet.Alike "") w → s.Alike "" s' →
      (w.perform s').1 = (w.perform s).1 ∧ (w.perform s').2.text = (w.perform s).2.text := fun hw hs =>
    ⟨(hw _ _ hs).1.symm, (hw _ _ hs).2.text.symm⟩
  by_cases hread : a.derivation.items = [] → quantifiedEntry a = none
  · exact hrespects (respects_action hread) halike
  · rw [Classical.not_imp, ← ne_eq, Option.ne_none_iff_exists'] at hread
    obtain ⟨hitems, e, he⟩ := hread
    obtain ⟨head, report, back, hback, hperform⟩ := perform_action_of_some hparameters hitems he
    -- the clause is printed from its guard where mAp did not clear it, and if it did the texts agree
    have htexts : derivationText (guardAt left e.guard) = derivationText (guardAt a.guards e.guard) := by
      by_cases hi : MAp.ClearsAt dialect groups a e.guard
      · rw [(hcleared.inside _ hi).1]
        by_contra hne
        exact h ⟨hparameters, hitems, e, he, hi, hne⟩
      · rw [hcleared.outside _ hi]
    rw [hperform, hperform, htexts]
    cases derivationText (guardAt a.guards e.guard) with
    | error f => exact ⟨rfl, rfl⟩
    | ok text =>
      refine hrespects (hback "") ⟨⟨_, (String.empty_append).symm⟩, rfl, halike.length, halike.guards⟩

/-- **An action that is disturbed is printed otherwise**, whatever is printed behind it. -/
theorem printed_differs (hwritten : AllWritten a.guards) (h : a.Disturbed dialect groups)
    (next next' : Except Fault Unit × String) :
    Differ (andThen (printed { a with guards := left }) next) (andThen (printed a) next') := by
  obtain ⟨e, he, hi, hne⟩ := h.quantified
  obtain ⟨head, report, back, hback, hperform⟩ := perform_action_of_some h.parameters h.derivation he
  rw [← (hcleared.inside _ hi).1] at hne
  -- the text ends with `head` where no condition can be derived, and goes on with a line for it otherwise
  have hfailed : ∀ {guards : List Guard} {f : Fault} (next : Except Fault Unit × String),
      derivationText (guardAt guards e.guard) = .error f →
        andThen (printed { a with guards }) next = (.error f, head) := by
    intro guards f next hf
    have hrun := hperform guards
    rw [hf] at hrun
    have hprinted : printed { a with guards } = (.error f, head) := congrArg (fun run => (run.1, run.2.text)) hrun
    rw [hprinted]
    rfl
  have hwent : ∀ {guards : List Guard} {text : String} (next : Except Fault Unit × String),
      derivationText (guardAt guards e.guard) = .ok text →
      ∃ more, (andThen (printed { a with guards }) next).2 = head ++ text ++ ")\n" ++ more := by
    intro guards text next htext
    have hrun := hperform guards
    rw [htext] at hrun
    obtain ⟨rest, hrest⟩ := (hback _ _ _ (Sheet.Alike.refl { text := head ++ text ++ ")\n", report, guards })).2.begins
    have hprinted : (printed { a with guards }).2 = head ++ text ++ ")\n" ++ rest :=
      (congrArg (fun run => run.2.text) hrun).trans hrest
    obtain ⟨more, hmore⟩ := andThen_begins (printed { a with guards }) next
    exact ⟨rest ++ more, by rw [hmore, hprinted, String.append_assoc]⟩
  have hlonger : ∀ text more : String, head ++ text ++ ")\n" ++ more ≠ head := by
    intro text more heq
    have hlength := congrArg (fun s => s.toList.length) heq
    simp only [String.toList_append, List.length_append] at hlength
    have hend : ")\n".toList.length = 2 := rfl
    omega
  cases hleft : derivationText (guardAt left e.guard) with
  | error f =>
    have hafter := hfailed next hleft
    cases hdirect : derivationText (guardAt a.guards e.guard) with
    | error f' =>
      refine .inr ⟨f, f', by rw [hafter], congrArg Prod.fst (hfailed next' hdirect), fun hf => hne ?_⟩
      rw [hleft, hdirect, hf]
    | ok text =>
      obtain ⟨more, hmore⟩ := hwent next' hdirect
      exact .inl fun heq => hlonger text more (hmore.symm.trans (heq.symm.trans (congrArg Prod.snd hafter)))
  | ok text =>
    obtain ⟨more, hmore⟩ := hwent next hleft
    cases hdirect : derivationText (guardAt a.guards e.guard) with
    | error f' =>
      have hbefore := hfailed next' hdirect
      exact .inl fun heq => hlonger text more (hmore.symm.trans (heq.trans (congrArg Prod.snd hbefore)))
    | ok text' =>
      obtain ⟨more', hmore'⟩ := hwent next' hdirect
      have hline := oneLine_derivationText (hcleared.allWritten hwritten e.guard) hleft
      have hline' := oneLine_derivationText (hwritten e.guard) hdirect
      refine .inl fun heq => append_line_ne hline hline' (fun ht => hne ?_) (hmore.symm.trans (heq.trans hmore'))
      rw [hleft, hdirect, ht]

end
end Pdkb
end Epistemic
