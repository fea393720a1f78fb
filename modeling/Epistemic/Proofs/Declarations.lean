import Epistemic.Proofs.Documents
import Epistemic.Proofs.Filing
import Epistemic.Proofs.Layout
import Epistemic.Proofs.Writing
/-!
# Declarations that are read back

The predicates, the objects and the parameters of a task are printed in PDKB as the declarations that the same reader
takes.  What is printed of a task that was read, and whose names can stand in a text, is read into the same predicates,
objects and parameters, in the same order (`Session.printed_declarations_read_back`).
-/
namespace Epistemic

open Source (IsPlainWord LaidOut Segment delimited_cons)
open TypedVariables (AllNamed)
open Work (Keeps perform_bind_eq_ok)

/-! ## Reading what was listed -/

/-- Variables as they are declared, each with a hyphen and its type. -/
def typedItems (pairs : List (Tree × Tree)) : List Tree := pairs.flatMap fun (v, type) => [v, .word "-", type]

theorem TypedVariables.readFrom_typedItems {place : String} {named : Bool} {pairs done : List (Tree × Tree)}
    (hp : AllNamed pairs) (hn : ∀ p ∈ pairs, (named && p.1.isList) = false) :
    readFrom place named [] done (typedItems pairs) = { pairs := done ++ pairs } := by
  induction pairs generalizing done with
  | nil => simp [typedItems, readFrom, addBatch]
  | cons p pairs ih =>
    obtain ⟨v, type⟩ := p
    obtain ⟨hv, hp⟩ := List.forall_mem_cons.1 hp
    obtain ⟨hnv, hn⟩ := List.forall_mem_cons.1 hn
    have hvariable : v.isWord "-" = false := Bool.eq_false_iff.2 (mt Tree.isWord_iff.1 hv)
    have hadd : addBatch named done [v] type = .ok (done ++ [(v, type)]) := by simp [addBatch, hnv]
    have hitems : typedItems ((v, type) :: pairs) = v :: .word "-" :: type :: typedItems pairs := rfl
    -- The variable waits in the batch, the hyphen ends the batch, and the type behind it is taken whatever it is.
    rw [hitems, readFrom, if_neg (by rw [hvariable]; decide), readFrom, if_pos (Tree.isWord_iff.2 rfl)]
    simp only [List.nil_append, List.isEmpty_cons, Bool.false_eq_true, if_false, hadd]
    rw [ih hp hn, List.append_assoc, List.singleton_append]

namespace Signatures

def pairsOf (vars : Catalog Tree) : List (Tree × Tree) := vars.map fun (v, type) => (.word v, type)

def declaration (e : String × Catalog Tree) : Tree := .list (.word e.1 :: typedItems (pairsOf e.2))

theorem ofPairs_pairsOf {vars c : Catalog Tree} (h : (Catalog.keys (c ++ vars)).Nodup) :
    ofPairs (pairsOf vars) c = c ++ vars := by
  induction vars generalizing c with
  | nil => simp [pairsOf, ofPairs]
  | cons x vars ih =>
    obtain ⟨v, type⟩ := x
    have hnew : v ∉ c.keys := Catalog.not_mem_keys_of_nodup h
    have hsplit : c ++ (v, type) :: vars = c ++ [(v, type)] ++ vars := by simp
    rw [pairsOf, List.map_cons, ofPairs, Catalog.insert_of_not_mem hnew, hsplit]
    exact ih (hsplit ▸ h)

theorem declareOne_declaration {s : Signatures} {name : String} {vars : Catalog Tree} (hname : name ∉ s.keys)
    (hvars : vars.keys.Nodup ∧ "-" ∉ vars.keys) : ∃ left,
    declareOne s (declaration (name, vars)) = (s ++ [(name, vars)], left, none) := by
  have hnamed : AllNamed (pairsOf vars) := by
    intro p hp
    obtain ⟨⟨v, type⟩, hv, rfl⟩ := List.mem_map.1 hp
    intro heq
    refine hvars.2 (List.mem_map.2 ⟨(v, type), hv, ?_⟩)
    exact Tree.word.inj heq
  have hwords : ∀ p ∈ pairsOf vars, (true && p.1.isList) = false := by
    intro p hp
    obtain ⟨⟨v, type⟩, -, rfl⟩ := List.mem_map.1 hp
    rfl
  have hread : TypedVariables.read "predicates" true (typedItems (pairsOf vars)) = { pairs := pairsOf vars } := by
    rw [TypedVariables.read, TypedVariables.readFrom_typedItems hnamed hwords, List.nil_append]
  have hnone : s.has name = false := Bool.eq_false_iff.2 fun hhas => hname ((Catalog.mem_keys_iff s name).2 hhas)
  refine ⟨.list [], ?_⟩
  simp only [declaration, declareOne, hnone, Bool.false_eq_true, if_false, hread]
  rw [ofPairs_pairsOf (c := []) hvars.1, List.nil_append, Catalog.insert_of_not_mem hname]

/-- **Predicates are read from their declarations.** -/
theorem declare_declarations {s preds : Signatures} (h : Filed (s ++ preds)) :
    (declare (preds.map declaration) s).signatures = s ++ preds ∧ (declare (preds.map declaration) s).fault = none := by
  induction preds generalizing s with
  | nil => simp [declare]
  | cons e preds ih =>
    obtain ⟨name, vars⟩ := e
    have hnew : name ∉ s.keys := Catalog.not_mem_keys_of_nodup h.once
    have hvars := h.named (name, vars) (List.mem_append_right _ List.mem_cons_self)
    obtain ⟨left, hone⟩ := declareOne_declaration hnew hvars
    have hsplit : s ++ (name, vars) :: preds = s ++ [(name, vars)] ++ preds := by simp
    rw [hsplit] at h ⊢
    rw [List.map_cons, declare, hone]
    exact ih h

end Signatures

namespace Hierarchy

/-- Types as they are declared, each with a hyphen and its names before it. -/
def declaration (h : Hierarchy) : List Tree := h.flatMap fun (type, names) => names ++ [.word "-", .word type]

theorem declareFrom_names {place : String} {batch names ts : List Tree} {h : Hierarchy} (hn : Unhyphened names) :
    declareFrom place false batch (names ++ ts) h = declareFrom place false (batch ++ names) ts h := by
  induction names generalizing batch with
  | nil => simp
  | cons t names ih =>
    have ht : t.isWord "-" = false :=
      Bool.eq_false_iff.2 fun hword => hn (Tree.isWord_iff.1 hword ▸ List.mem_cons_self)
    have hmay : mayDeclare false h t = .ok () := by cases t <;> rfl
    rw [List.cons_append, declareFrom.eq_def]
    simp only [hmay, ht, Bool.false_eq_true, if_false]
    rw [ih fun hm => hn (List.mem_cons_of_mem t hm), List.append_assoc, List.singleton_append]

theorem declareFrom_type {place type : String} {batch ts : List Tree} {h : Hierarchy} (hne : batch ≠ []) :
    declareFrom place false batch (.word "-" :: .word type :: ts) h =
      declareFrom place false [] ts (h.extend type batch) := by
  have hempty : batch.isEmpty = false := Bool.eq_false_iff.2 (mt List.isEmpty_iff.1 hne)
  rw [declareFrom]
  simp only [mayDeclare, Bool.false_and, Bool.false_eq_true, if_false, Tree.isWord, beq_self_eq_true, if_true, hempty]

/-- **Types and their names are read from their declarations.** -/
theorem declareFrom_declaration {place : String} {c h : Hierarchy} (hf : Filed (c ++ h)) :
    declareFrom place false [] (declaration h) c = { hierarchy := c ++ h } := by
  induction h generalizing c with
  | nil => simp [declaration, declareFrom]
  | cons e h ih =>
    obtain ⟨type, names⟩ := e
    have hmem : (type, names) ∈ c ++ (type, names) :: h := List.mem_append_right _ List.mem_cons_self
    have hnew : type ∉ c.keys := Catalog.not_mem_keys_of_nodup hf.once
    have hitems : declaration ((type, names) :: h) = names ++ .word "-" :: .word type :: declaration h := by
      simp [declaration]
    have hextend : Catalog.extend c type names = c ++ [(type, names)] := by
      rw [Catalog.extend, Catalog.insert_of_not_mem hnew, Catalog.get?_of_not_mem hnew]
      rfl
    have hsplit : c ++ (type, names) :: h = c ++ [(type, names)] ++ h := by simp
    rw [hitems, declareFrom_names (hf.named _ hmem), List.nil_append, declareFrom_type (hf.inhabited _ hmem), hextend,
      hsplit]
    exact ih (hsplit ▸ hf)

/-- What is declared under other types than that of agents. -/
def withoutAgents (h : Hierarchy) : Hierarchy := h.filter fun (type, _) => type != "agent"

theorem Filed.withoutAgents {h : Hierarchy} (hf : h.Filed) : h.withoutAgents.Filed :=
  ⟨hf.once.sublist (List.filter_sublist.map _), fun e he => hf.inhabited e (List.mem_filter.1 he).1,
    fun e he => hf.named e (List.mem_filter.1 he).1⟩

end Hierarchy

theorem Action.declareFields_parameters {pairs : List (Tree × Tree)} (hp : AllNamed pairs) (dialect : Dialect)
    (groups ts : List Tree) (report : String) (a : Action) :
    declareFields dialect groups (.word ":parameters" :: .list (typedItems pairs) :: ts) report a =
      declareFields dialect groups ts report
        { a with parameters := pairs.map fun (v, type) => .list [v, type] } := by
  have hfield : ActionField.of? dialect (.word ":parameters") = some .parameters := by
    rw [ActionField.of?, if_pos (Tree.isWord_iff.2 rfl)]
  have hset : a.setField (.list (typedItems pairs)) .parameters =
      .ok { a with parameters := pairs.map fun (v, type) => .list [v, type] } := by
    simp only [setField, readParameters, TypedVariables.read]
    rw [TypedVariables.readFrom_typedItems hp (by simp), List.nil_append]
  have hother : (ActionField.parameters == ActionField.observers) = false := by decide
  rw [declareFields, hfield]
  simp only [hset, hother, Bool.and_false, Bool.false_eq_true, if_false]

/-! ## Names that can stand in a text -/

/-- A name that is read as it is written. -/
def Tree.IsPlain : Tree → Prop
  | .word w => IsPlainWord w
  | .list _ => False

instance : (t : Tree) → Decidable t.IsPlain
  | .word w => inferInstanceAs (Decidable (IsPlainWord w))
  | .list _ => inferInstanceAs (Decidable False)

theorem Tree.IsPlain.word {t : Tree} (h : t.IsPlain) : ∃ w, t = .word w ∧ IsPlainWord w := by
  cases t with
  | word w => exact ⟨w, rfl, h⟩
  | list ts => exact h.elim

/-- A domain whose predicates, types, objects and parameters have names that are read as they are written. -/
def Domain.PlainNames (d : Domain) : Prop :=
  (∀ e ∈ d.predicates, IsPlainWord e.1 ∧ ∀ x ∈ e.2, IsPlainWord x.1 ∧ x.2.IsPlain) ∧
  (∀ e ∈ d.objects, IsPlainWord e.1 ∧ ∀ o ∈ e.2, o.IsPlain) ∧
  ∀ a ∈ d.actions, ∀ p ∈ a.parameters, ∀ t ∈ p.items, t.IsPlain

instance (d : Domain) : Decidable d.PlainNames := by
  unfold Domain.PlainNames
  infer_instance

/-! ## Printing -/

namespace Pdkb

def typedText (p : Tree × Tree) : String := p.1.shown ++ " - " ++ p.2.shown

theorem laidOut_typedText {p : Tree × Tree} (hv : p.1.IsPlain) (ht : p.2.IsPlain) :
    LaidOut (typedText p).toList [p.1, .word "-", p.2] := by
  obtain ⟨v, hv, hplain⟩ := hv.word
  obtain ⟨w, hw, hwplain⟩ := ht.word
  have heq : (typedText p).toList = v.toList ++ ' ' :: ("-".toList ++ ' ' :: (w.toList ++ [])) := by
    simp [typedText, hv, hw, Tree.shown]
  rw [heq, hv, hw]
  refine .word hplain (delimited_cons (by decide) _) (.blank (by decide) ?_)
  refine .word (by decide +kernel) (delimited_cons (by decide) _) (.blank (by decide) ?_)
  exact .word hwplain (by simp [Source.Delimited]) .nil

def typedTexts (pairs : List (Tree × Tree)) : String := String.join (pairs.map fun p => " " ++ typedText p)

theorem segment_typedTexts {pairs : List (Tree × Tree)} (h : ∀ p ∈ pairs, p.1.IsPlain ∧ p.2.IsPlain) :
    Segment (typedTexts pairs) (typedItems pairs) := by
  refine .join fun p hp => ?_
  have heq : (" " ++ typedText p).toList = ' ' :: (typedText p).toList := by simp
  exact .of_space (by decide) heq (laidOut_typedText (h p hp).1 (h p hp).2)

/-! ### Predicates -/

def predicateText (e : String × Catalog Tree) : String :=
  " " ++ ("(" ++ (e.1 ++ typedTexts (Signatures.pairsOf e.2)) ++ ")")

theorem segment_predicateText {e : String × Catalog Tree} (hname : IsPlainWord e.1)
    (hvars : ∀ x ∈ e.2, IsPlainWord x.1 ∧ x.2.IsPlain) : Segment (predicateText e) [Signatures.declaration e] := by
  have hpairs : ∀ p ∈ Signatures.pairsOf e.2, p.1.IsPlain ∧ p.2.IsPlain := by
    intro p hp
    obtain ⟨x, hx, rfl⟩ := List.mem_map.1 hp
    exact hvars x hx
  have heq : (predicateText e).toList = ' ' :: ("(" ++ (e.1 ++ typedTexts (Signatures.pairsOf e.2)) ++ ")").toList := by
    simp [predicateText]
  exact .of_space (by decide) heq ((segment_typedTexts hpairs).form hname)

theorem writes_predicate {e : String × Catalog Tree} (hvars : ∀ x ∈ e.2, x.2.IsPlain) :
    Writes (predicate e.1 e.2) (.ok (predicateText e)) := by
  have heach : Writes (Work.each (fun x => do
      Draft.write (" " ++ x.1 ++ " - ")
      Draft.write (← nameIn x.2)) e.2) (.ok (typedTexts (Signatures.pairsOf e.2))) := by
    rw [typedTexts, Signatures.pairsOf, List.map_map]
    refine Writes.each_ok fun x hx => ?_
    obtain ⟨w, hw, -⟩ := (hvars x hx).word
    obtain ⟨v, type⟩ := x
    cases hw
    have htext : ((fun p => " " ++ typedText p) ∘ fun (x : String × Tree) => (Tree.word x.1, x.2)) (v, .word w) =
        " " ++ v ++ " - " ++ w := by
      simp only [Function.comp_apply, typedText, Tree.shown, String.append_assoc]
    rw [htext]
    exact (writes_write (" " ++ v ++ " - ")).bind (writes_write w)
  have hopen : " (" = " " ++ "(" := rfl
  have heq : predicateText e = " (" ++ e.1 ++ (typedTexts (Signatures.pairsOf e.2) ++ ")") := by
    rw [predicateText, hopen]
    simp only [String.append_assoc]
  rw [heq]
  exact (writes_write (" (" ++ e.1)).bind (heach.bind (writes_write ")"))

/-- The declaration of predicates, without what is laid out around it. -/
def predicateForm (d : Domain) : String :=
  "(" ++ (":predicates" ++ String.join (d.predicates.map predicateText)) ++ ")"

theorem scan_predicateForm {d : Domain} (h : d.PlainNames) : Source.scan .levels (predicateForm d) =
    .ok (.list (.word ":predicates" :: d.predicates.map Signatures.declaration)) := by
  have hsegment : Segment (String.join (d.predicates.map predicateText))
      (d.predicates.flatMap fun e => [Signatures.declaration e]) :=
    .join fun e he => segment_predicateText (h.1 e he).1 (h.1 e he).2
  rw [← List.map_eq_flatMap] at hsegment
  exact (hsegment.form (by decide +kernel)).scan

theorem writes_predicateDeclaration {d : Domain} (h : d.PlainNames) :
    Writes (predicateDeclaration d) (.ok ("\t" ++ predicateForm d ++ "\n\n")) := by
  have heach : Writes (Work.each (fun e => predicate e.1 e.2) d.predicates)
      (.ok (String.join (d.predicates.map predicateText))) :=
    Writes.each_ok fun e he => writes_predicate fun x hx => ((h.1 e he).2 x hx).2
  have hopen : "\t(:predicates" = "\t" ++ "(" ++ ":predicates" := rfl
  have hclose : ")\n\n" = ")" ++ "\n\n" := rfl
  have heq : "\t" ++ predicateForm d ++ "\n\n" =
      "\t(:predicates" ++ (String.join (d.predicates.map predicateText) ++ ")\n\n") := by
    rw [predicateForm, hopen, hclose]
    simp only [String.append_assoc]
  rw [heq]
  exact (writes_write _).bind (heach.bind (writes_write _))

/-! ### Objects -/

theorem segment_objectLine {type : String} {os : List Tree} (htype : IsPlainWord type) (hos : ∀ o ∈ os, o.IsPlain) :
    Segment (objectLine type os) (os ++ [.word "-", .word type]) := by
  have hnames : (os.map Tree.shown).map Tree.word = os := by
    rw [List.map_map]
    refine (List.map_congr_left fun o ho => ?_).trans (List.map_id os)
    obtain ⟨w, rfl, -⟩ := (hos o ho).word
    rfl
  have hplain : ∀ w ∈ os.map Tree.shown, IsPlainWord w := by
    intro w hw
    obtain ⟨o, ho, rfl⟩ := List.mem_map.1 hw
    obtain ⟨w, rfl, hplain⟩ := (hos o ho).word
    exact hplain
  have hbehind : LaidOut ("-".toList ++ ' ' :: (type.toList ++ ['\n'])) [.word "-", .word type] := by
    refine .word (by decide +kernel) (delimited_cons (by decide) _) (.blank (by decide) ?_)
    exact .word htype (delimited_cons (by decide) _) (.blank (by decide) .nil)
  have hline := LaidOut.words hplain hbehind
  rw [hnames] at hline
  have heq : (objectLine type os).toList = '\t' :: '\t' ::
      ((String.join ((os.map Tree.shown).map (· ++ " "))).toList ++
        ("-".toList ++ ' ' :: (type.toList ++ ['\n']))) := by
    simp [objectLine, Function.comp_def]
  exact .of_space (by decide) heq (.blank (by decide) hline)

/-- The declaration of objects, without what is laid out around it. -/
def objectForm (objects : Hierarchy) : String :=
  "(" ++ (":objects" ++ ("\n" ++ String.join (objects.withoutAgents.map fun e => objectLine e.1 e.2) ++ "\t")) ++ ")"

theorem scan_objectForm {objects : Hierarchy} (h : ∀ e ∈ objects, IsPlainWord e.1 ∧ ∀ o ∈ e.2, o.IsPlain) :
    Source.scan .levels (objectForm objects) =
      .ok (.list (.word ":objects" :: Hierarchy.declaration objects.withoutAgents)) := by
  have hlines : Segment (String.join (objects.withoutAgents.map fun e => objectLine e.1 e.2))
      (Hierarchy.declaration objects.withoutAgents) := by
    refine .join fun e he => ?_
    have hplain := h e (List.mem_filter.1 he).1
    exact segment_objectLine hplain.1 hplain.2
  have hbefore : Segment "\n" [] := .of_space (by decide) rfl .nil
  have hbehind : Segment "\t" [] := .of_space (by decide) rfl .nil
  have hsegment := (hbefore.append hlines).append hbehind
  rw [List.nil_append, List.append_nil] at hsegment
  exact (hsegment.form (by decide +kernel)).scan

theorem objectDeclaration_eq {objects : Hierarchy} (h : objects.length > 1) :
    objectDeclaration objects = "\n\t" ++ objectForm objects ++ "\n" := by
  have hopen : "\n\t(:objects\n" = "\n\t" ++ "(" ++ ":objects" ++ "\n" := rfl
  have hclose : "\t)\n" = "\t" ++ ")" ++ "\n" := rfl
  rw [objectDeclaration, if_pos h, objectForm, hopen, hclose]
  simp only [String.append_assoc, Hierarchy.withoutAgents]

/-- If agents are the only objects, no other type is lost when their declaration is left out. -/
theorem withoutAgents_eq_nil {objects : Hierarchy} (hagent : "agent" ∈ objects.keys) (h : ¬ objects.length > 1) :
    objects.withoutAgents = [] := by
  match objects, hagent, h with
  | [e], hagent, _ =>
    have hname : e.1 = "agent" := (List.mem_singleton.1 hagent).symm
    simp [Hierarchy.withoutAgents, hname]
  | _ :: _ :: _, _, h => exact absurd (by simp) h

/-! ### Parameters -/

/-- Parameters with blanks between them. -/
def parameterTexts : List (Tree × Tree) → String
  | [] => ""
  | p :: pairs => typedText p ++ typedTexts pairs

theorem laidOut_parameterTexts {pairs : List (Tree × Tree)} (h : ∀ p ∈ pairs, p.1.IsPlain ∧ p.2.IsPlain) :
    LaidOut (parameterTexts pairs).toList (typedItems pairs) := by
  cases pairs with
  | nil => exact .nil
  | cons p pairs =>
    obtain ⟨hp, hpairs⟩ := List.forall_mem_cons.1 h
    have hrest := segment_typedTexts hpairs
    rw [parameterTexts, String.toList_append]
    exact (laidOut_typedText hp.1 hp.2).append hrest.delimited hrest.laidOut

theorem parameter_eq {p : Tree × Tree} (hv : p.1.IsPlain) (ht : p.2.IsPlain) :
    parameter (.list [p.1, p.2]) = .ok (typedText p) := by
  obtain ⟨v, hv, -⟩ := hv.word
  obtain ⟨w, hw, -⟩ := ht.word
  rw [typedText, hv, hw]
  rfl

theorem perform_parameterList {pairs : List (Tree × Tree)} (h : ∀ p ∈ pairs, p.1.IsPlain ∧ p.2.IsPlain)
    (sheet : Sheet) : (parameterList (pairs.map fun (v, type) => .list [v, type])).perform sheet =
      (.ok (), { sheet with text := sheet.text ++ parameterTexts pairs }) := by
  induction pairs generalizing sheet with
  | nil => simp [parameterList, parameterTexts]
  | cons p pairs ih =>
    obtain ⟨hp, hpairs⟩ := List.forall_mem_cons.1 h
    rw [List.map_cons, parameterList, parameter_eq hp.1 hp.2, Work.perform_bind_ok (Work.perform_ofExcept _ _),
      Sheet.perform_write_bind]
    cases pairs with
    | nil => simp [parameterList, parameterTexts, typedTexts]
    | cons q pairs =>
      have hnext := ih hpairs { sheet with text := sheet.text ++ typedText p ++ " " }
      have htext : sheet.text ++ parameterTexts (p :: q :: pairs) =
          sheet.text ++ typedText p ++ " " ++ parameterTexts (q :: pairs) := by
        simp only [parameterTexts, typedTexts, List.map_cons, String.join_cons, String.append_assoc]
      rw [htext]
      exact hnext

def parameterForm (pairs : List (Tree × Tree)) : String := "(" ++ parameterTexts pairs ++ ")"

theorem scan_parameterForm {pairs : List (Tree × Tree)} (h : ∀ p ∈ pairs, p.1.IsPlain ∧ p.2.IsPlain) :
    Source.scan .levels (parameterForm pairs) = .ok (.list (typedItems pairs)) := by
  refine ((laidOut_parameterTexts h).enclosed fun t ht => ?_).scan
  cases pairs with
  | nil => cases ht
  | cons p pairs =>
    cases ht
    obtain ⟨v, hv, -⟩ := (h p List.mem_cons_self).1.word
    rw [hv]
    rfl

theorem perform_parameters {a : Action} {pairs : List (Tree × Tree)}
    (ha : a.parameters = pairs.map fun (v, type) => .list [v, type]) (h : ∀ p ∈ pairs, p.1.IsPlain ∧ p.2.IsPlain)
    (sheet : Sheet) : (parameters a).perform sheet =
      (.ok (), { sheet with text := sheet.text ++ ("\t\t:parameters\t\t\t " ++ parameterForm pairs ++ "\n") }) := by
  have hopen : "\t\t:parameters\t\t\t (" = "\t\t:parameters\t\t\t " ++ "(" := rfl
  have hclose : ")\n" = ")" ++ "\n" := rfl
  rw [parameters, ha, Sheet.perform_write_bind, Work.perform_bind_ok (perform_parameterList h _), Sheet.perform_write,
    hopen, hclose, parameterForm]
  simp only [String.append_assoc]

/-! ### Documents that hold them -/

/-- Whenever the document is written to its end, the text stands in it. -/
def Holds (document : Work Draft Unit) (text : String) : Prop :=
  ∀ draft done, document.perform draft = (.ok (), done) → ∃ before after, done.text = before ++ text ++ after

theorem keeps_actionsFrom (start : String) (actions : List Action) (place : Nat) :
    Keeps (Draft.Begins start) (actionsFrom place actions) := by
  induction actions generalizing place with
  | nil => exact fun draft h => h
  | cons a actions ih => exact (keeps_print _ _ _).bind fun _ => ih (place + 1)

theorem keeps_initialSection (start : String) (agents : Except Fault (List Tree)) (depth : Depth) (state : List Tree) :
    Keeps (Draft.Begins start) (initialSection agents depth state) := by
  have hat : ∀ i, Keeps (Draft.Begins start) (initialAt agents state i) := by
    intro i
    refine (keeps_write _).bind fun _ => Keeps.each fun t _ => (Keeps.ofExcept _).bind fun text => ?_
    split
    · exact keeps_write _
    · exact fun draft h => h
  refine (keeps_write _).bind fun _ => (keeps_write _).bind fun _ => (Keeps.ofExcept _).bind fun n => ?_
  exact (Keeps.each fun i _ => hat (i + 1)).bind fun _ => keeps_write _

theorem keeps_goalSection {I : Draft → Prop} (hI : Draft.Open I) (p : Problem) : Keeps I (goalSection p) := by
  have hgoal : ∀ t, Keeps I (goal t) := fun t => (Keeps.ofExcept _).bind fun _ => hI.keeps _
  refine (hI.keeps _).bind fun _ => (Keeps.each fun t _ => hgoal t).bind fun _ => ?_
  exact (Keeps.each fun t _ => hgoal t).bind fun _ => hI.keeps _

theorem domainDocument_holds {d : Domain} {form : String}
    (h : Writes (predicateDeclaration d) (.ok ("\t" ++ form ++ "\n\n"))) (name : String) :
    Holds (domainDocument name d) form := by
  intro draft done hrun
  rw [domainDocument, perform_write_bind] at hrun
  obtain ⟨_, agents, -, hrun⟩ := perform_bind_eq_ok.1 hrun
  rw [perform_write_bind] at hrun
  obtain ⟨_, types, -, hrun⟩ := perform_bind_eq_ok.1 hrun
  rw [Work.perform_bind_ok (h types)] at hrun
  have hbegins : done.Begins (types.text ++ ("\t" ++ form ++ "\n\n")) := by
    refine Keeps.of_ok ?_ hrun (Draft.begins_self _)
    exact (keeps_write _).bind fun _ => (keeps_actionsFrom _ d.actions 0).bind fun _ => keeps_write _
  obtain ⟨rest, hrest⟩ := hbegins
  exact ⟨types.text ++ "\t", "\n\n" ++ rest, by rw [hrest]; simp only [String.append_assoc]⟩

theorem problemDocument_holds {t : Task} {d : Domain} {form : String} (ht : t.domain = some d)
    (h : objectDeclaration d.objects = "\n\t" ++ form ++ "\n") (name : String) (p : Problem) :
    Holds (problemDocument name p t) form := by
  intro draft done hrun
  have hneed : t.needDomain = .ok d := by rw [Task.needDomain, ht]
  rw [problemDocument, perform_write_bind, hneed, Work.perform_bind_ok (Work.perform_ofExcept _ _)] at hrun
  obtain ⟨domainName, named, -, hrun⟩ := perform_bind_eq_ok.1 hrun
  rw [perform_write_bind, perform_write_bind] at hrun
  have hkeeps : ∀ start, Keeps (Draft.Begins start)
      (initialSection d.agents (t.depth.getD .standard) p.state >>= fun _ => goalSection p) := fun start =>
    (keeps_initialSection start _ _ _).bind fun _ => keeps_goalSection Draft.open_begins p
  obtain ⟨rest, hrest⟩ := (hkeeps _).of_ok hrun (Draft.begins_self _)
  refine ⟨named.text ++ ("\x7binclude:" ++ domainName ++ ".pdkbpddl\x7d\n\n" ++ "(define (problem " ++ name ++ ")\n" ++
      "\n\t(:domain " ++ domainName ++ ")\n") ++ ("\n\t(:depth " ++ depthText (t.depth.getD .standard) ++ ")\n\n\t"),
    "\n\n\t(:projection )\n\n\t(:task valid_generation)\n" ++ rest, hrest.trans ?_⟩
  have hbefore : ")\n\n\t" = ")\n" ++ "\n\t" := rfl
  have hbehind : "\n\n\t(:projection )\n\n\t(:task valid_generation)\n" =
      "\n" ++ "\n\t(:projection )\n" ++ "\n\t(:task valid_generation)\n" := rfl
  rw [h, hbefore, hbehind]
  simp only [String.append_assoc]

/-! ## Tasks that were read -/

/-- The declaration of predicates is printed to its end.  It is scanned and read, from no predicates, into those of the
domain. -/
def PredicatesReadBack (d : Domain) : Prop :=
  ∃ form decls,
    (∀ draft, (predicateDeclaration d).perform draft =
      (.ok (), { draft with text := draft.text ++ ("\t" ++ form ++ "\n\n") })) ∧
    (∀ name, Holds (domainDocument name d) form) ∧
    Source.scan .levels form = .ok (.list (.word ":predicates" :: decls)) ∧
    (Signatures.declare decls []).signatures = d.predicates ∧ (Signatures.declare decls []).fault = none

/-- The declaration of objects is scanned and read, from no objects, into those of the domain without the agents.  None
is printed if there are no others. -/
def ObjectsReadBack (t : Task) (d : Domain) : Prop :=
  objectDeclaration d.objects = "" ∧ d.objects.withoutAgents = [] ∨
  ∃ form items,
    objectDeclaration d.objects = "\n\t" ++ form ++ "\n" ∧
    (∀ name p, Holds (problemDocument name p t) form) ∧
    Source.scan .levels form = .ok (.list (.word ":objects" :: items)) ∧
    Hierarchy.declare ":objects" false items [] = { hierarchy := d.objects.withoutAgents }

/-- The list of parameters is printed to its end.  It is scanned, and as a field of any action it is read into the same
parameters. -/
def ParametersReadBack (a : Action) : Prop :=
  ∃ form items,
    (∀ sheet, (parameters a).perform sheet =
      (.ok (), { sheet with text := sheet.text ++ ("\t\t:parameters\t\t\t " ++ form ++ "\n") })) ∧
    Source.scan .levels form = .ok items ∧
    ∀ dialect groups fields report b,
      Action.declareFields dialect groups (.word ":parameters" :: items :: fields) report b =
        Action.declareFields dialect groups fields report { b with parameters := a.parameters }

variable {d : Domain}

theorem predicatesReadBack (hfiled : d.Filed) (hplain : d.PlainNames) : PredicatesReadBack d := by
  have hwrites := writes_predicateDeclaration hplain
  refine ⟨predicateForm d, d.predicates.map Signatures.declaration, hwrites, domainDocument_holds hwrites,
    scan_predicateForm hplain, ?_⟩
  exact Signatures.declare_declarations (s := []) hfiled.predicates

theorem objectsReadBack {t : Task} (ht : t.domain = some d) (hfiled : d.Filed) (hplain : d.PlainNames)
    (hagent : "agent" ∈ d.objects.keys) : ObjectsReadBack t d := by
  by_cases hlen : d.objects.length > 1
  · have hform := objectDeclaration_eq hlen
    refine .inr ⟨_, _, hform, problemDocument_holds ht hform, scan_objectForm hplain.2.1, ?_⟩
    exact Hierarchy.declareFrom_declaration (c := []) hfiled.objects.withoutAgents
  · refine .inl ⟨?_, withoutAgents_eq_nil hagent hlen⟩
    rw [objectDeclaration, if_neg hlen]

theorem parametersReadBack (hfiled : d.Filed) (hplain : d.PlainNames) {a : Action} (ha : a ∈ d.actions) :
    ParametersReadBack a := by
  obtain ⟨pairs, hnamed, hpairs⟩ := hfiled.actions a ha
  have hnames : ∀ p ∈ pairs, p.1.IsPlain ∧ p.2.IsPlain := by
    intro p hp
    have hitems := hplain.2.2 a ha (.list [p.1, p.2]) (by rw [hpairs]; exact List.mem_map.2 ⟨p, hp, rfl⟩)
    exact ⟨hitems p.1 (by simp [Tree.items]), hitems p.2 (by simp [Tree.items])⟩
  refine ⟨_, _, perform_parameters hpairs hnames, scan_parameterForm hnames, ?_⟩
  intro dialect groups fields report b
  rw [hpairs]
  exact Action.declareFields_parameters hnamed dialect groups fields report b

end Pdkb

namespace Session

/-- **Printed declarations are read back.**  In a task that was read, whose names can stand in a text and which has
agents, the predicates, the objects other than agents and the parameters of every action are printed as declarations
from which the reader makes them again, in the same order. -/
theorem printed_declarations_read_back {s : Session} (hs : Parsed s) {d : Domain} (hd : s.task.domain = some d)
    (hplain : d.PlainNames) (hagent : "agent" ∈ d.objects.keys) :
    Pdkb.PredicatesReadBack d ∧ Pdkb.ObjectsReadBack s.task d ∧ ∀ a ∈ d.actions, Pdkb.ParametersReadBack a := by
  have hfiled : d.Filed := hs.filed d hd
  refine ⟨Pdkb.predicatesReadBack hfiled hplain, ?_, fun a ha => Pdkb.parametersReadBack hfiled hplain ha⟩
  exact Pdkb.objectsReadBack hd hfiled hplain hagent

/-- A yard with boxes, where one variable, one object and one parameter have no type of their own. -/
def yard : Session :=
  ((readProblem "p" (some "(define (problem p) (:domain yard) (:agents ann bob) (:objects b c - box t))")).perform
    ((readDomain "d" (some ("(define (domain yard) (:predicates (on ?x ?y - box ?z) (lit))" ++
      "(:action move :parameters (?x - box ?y)))"))).perform { task := { dialect := .levels } }).2).2

theorem printed_declarations_read_back_yard : Parsed yard ∧ ∃ d, yard.task.domain = some d ∧ d.PlainNames ∧
    d.predicates.keys = ["on", "lit"] ∧ d.objects.keys = ["agent", "box", "object"] ∧ d.actions.length = 1 ∧
    Pdkb.PredicatesReadBack d ∧ Pdkb.ObjectsReadBack yard.task d ∧ ∀ a ∈ d.actions, Pdkb.ParametersReadBack a := by
  have hparsed : Parsed yard := .problem (.domain (.fresh .levels) _ _) _ _
  have hyard : (yard.task.domain.any fun d => decide (d.PlainNames ∧ d.predicates.keys = ["on", "lit"] ∧
      d.objects.keys = ["agent", "box", "object"] ∧ d.actions.length = 1)) = true := by decide +kernel
  obtain ⟨d, hd, hfacts⟩ := (Option.any_eq_true _ _).1 hyard
  obtain ⟨hplain, hpredicates, hobjects, hactions⟩ := of_decide_eq_true hfacts
  have hagent : "agent" ∈ d.objects.keys := by rw [hobjects]; exact List.mem_cons_self
  exact ⟨hparsed, d, hd, hplain, hpredicates, hobjects, hactions,
    printed_declarations_read_back hparsed hd hplain hagent⟩

end Session
end Epistemic
