import Epistemic.Proofs.Documents
import Epistemic.Proofs.OperatorText
import Epistemic.Proofs.Parsed
/-!
# The line of true fluents

A comma stands behind a fact of the initial state if the next formula is a fact (`MAp.perform_factsFrom`).  Where
beliefs stand between facts there is no comma, and two names run into one: the facts are joined by commas exactly if
they stand together (`Session.writeMAp_true_fluents_iff`).
-/
namespace Epistemic
namespace MAp

/-! ## Facts and beliefs -/

/-- A formula without operators, by whose name a fluent is told to hold. -/
def PlainFact (t : Tree) : Prop := t.items ≠ [] ∧ ∃ n, Names t n

/-- A formula that begins with an operator. -/
def Belief (t : Tree) : Prop :=
  ∃ head rest text, t.items = head :: rest ∧ Literals.isOperator head = true ∧ formula t = .ok text

/-- The name of a formula, if it has no operator. -/
def factName? (t : Tree) : Option String := (formula t).toOption.filter fun text => !hasOperator text

/-- The names of the formulas without operators. -/
def factNames (ts : List Tree) : List String := ts.filterMap factName?

theorem factName?_eq_some {t : Tree} {n : String} : factName? t = some n ↔ Names t n := by
  rw [factName?, Option.filter_eq_some_iff, Names]
  cases formula t <;> simp [Except.toOption]

theorem hasOperator_append {op : String} (h : hasOperator op = true) (rest : String) :
    hasOperator (op ++ rest) = true := by
  have happend : ∀ m : Char, Text.occurs [m, '('] op.toList = true →
      Text.occurs [m, '('] (op ++ rest).toList = true := by
    intro m hm
    obtain ⟨a, b, hab⟩ := Text.occurs_pair_iff.1 hm
    exact Text.occurs_pair_iff.2 ⟨a, b ++ rest.toList, by rw [String.toList_append, hab]; simp⟩
  rw [hasOperator, Bool.or_eq_true] at h ⊢
  exact h.imp (happend 'B') (happend 'C')

/-- Writing the agents of an operator in brackets keeps its mark. -/
theorem occurs_commonBelief {w : List Char} (h : Text.occurs ['C', '('] w = true) :
    Text.occurs ['C', '('] (commonBelief w) = true := by
  have hkept : ∃ a b, Text.replaceAll "C(".toList "C([".toList w = a ++ 'C' :: '(' :: '[' :: b := by
    induction w with
    | nil => simp [Text.occurs] at h
    | cons c cs ih =>
      by_cases hprefix : "C(".toList <+: c :: cs
      · obtain ⟨rest, hrest⟩ := hprefix
        exact ⟨[], _, by rw [← hrest, Text.replaceAll_piece_append _ _ (by decide)]; rfl⟩
      · rw [Text.occurs, Bool.or_eq_true, List.isPrefixOf_iff_prefix] at h
        obtain ⟨a, b, hab⟩ := ih (h.resolve_left hprefix)
        exact ⟨c :: a, b, by rw [Text.replaceAll_cons_kept _ hprefix, hab]; rfl⟩
  obtain ⟨a, b, hab⟩ := hkept
  refine Text.occurs_pair_iff.2 ⟨a, ('[' :: b).dropLast ++ "],".toList, ?_⟩
  rw [commonBelief, hab, List.dropLast_append_of_ne_nil (by simp)]
  simp

/-- **A formula that begins with an operator has one in its text.** -/
theorem hasOperator_of_formula {t head : Tree} {rest : List Tree} {text : String} (hitems : t.items = head :: rest)
    (hop : Literals.isOperator head = true) (h : formula t = .ok text) : hasOperator text = true := by
  have hhead : ∀ {r}, operator? head = .ok r → ∃ op, r = some op ∧ hasOperator op = true := by
    intro r hr
    rw [Literals.isOperator, Bool.or_eq_true] at hop
    unfold operator? at hr
    split at hr
    · split at hr
      · rename_i w hcommon
        cases hr
        refine ⟨_, rfl, ?_⟩
        rw [hasOperator, Bool.or_eq_true]
        exact .inr (by simpa [Tree.hasCommonBelief, Tree.mentions] using occurs_commonBelief hcommon)
      · rename_i w hcommon
        have hbelief := hop.resolve_right hcommon
        rw [if_pos hbelief] at hr
        cases hr
        exact ⟨w, rfl, by rw [hasOperator, Bool.or_eq_true]; exact .inl hbelief⟩
    · split at hr
      · cases hr
      · rename_i hcommon
        rw [if_pos (hop.resolve_right hcommon)] at hr
        cases hr
  rw [formula, hitems, formulaFrom] at h
  split at h
  · cases h
  · rename_i hnone
    obtain ⟨op, hsome, -⟩ := hhead hnone
    cases hsome
  · rename_i op hsome
    obtain ⟨_, heq, hmark⟩ := hhead hsome
    cases heq
    split at h
    · cases h
    · rename_i inner skip _
      cases hrest : formulaFrom skip (0 + 1) rest with
      | error e => rw [hrest] at h; cases h
      | ok more =>
        rw [hrest] at h
        cases h
        exact hasOperator_append (hasOperator_append hmark inner) more

theorem PlainFact.factName?_ne_none {t : Tree} (h : PlainFact t) : factName? t ≠ none := by
  obtain ⟨-, n, hn⟩ := h
  rw [factName?_eq_some.2 hn]
  exact nofun

theorem Belief.factName? {t : Tree} (h : Belief t) : factName? t = none := by
  obtain ⟨head, rest, text, hitems, hop, htext⟩ := h
  rw [MAp.factName?, htext, Option.filter_eq_none_iff]
  rintro a ⟨⟩
  simp [hasOperator_of_formula hitems hop htext]

/-! ## Commas -/

/-- The facts among formulas, each with a comma behind it if a fact is next. -/
def trueLine : List Tree → String
  | [] => ""
  | t :: ts =>
    match factName? t with
    | none => trueLine ts
    | some n => n ++ (if (ts.head?.bind factName?).isSome then ", " else "") ++ trueLine ts

theorem commaBefore_cons {t head : Tree} {rest : List Tree} (hitems : t.items = head :: rest) (ts : List Tree) :
    commaBefore (t :: ts) = .ok (!Literals.isOperator head) := by
  rw [commaBefore, Tree.item?, hitems, Literals.isOperator, Bool.not_or]
  rfl

theorem commaBefore_eq {ts : List Tree} (h : ∀ t ∈ ts, PlainFact t ∨ Belief t) :
    commaBefore ts = .ok (ts.head?.bind factName?).isSome := by
  cases ts with
  | nil => rfl
  | cons t ts =>
    rw [List.head?_cons, Option.bind_some]
    rcases h t List.mem_cons_self with ⟨hitems, n, hn⟩ | hbelief
    · obtain ⟨head, rest, hitems⟩ := List.exists_cons_of_ne_nil hitems
      have hplain : Literals.isOperator head = false := by
        rw [← Bool.not_eq_true]
        intro hop
        have hmark := hasOperator_of_formula hitems hop hn.1
        rw [hn.2] at hmark
        cases hmark
      rw [commaBefore_cons hitems, hplain, factName?_eq_some.2 hn]
      rfl
    · obtain ⟨head, rest, text, hitems, hop, -⟩ := id hbelief
      rw [commaBefore_cons hitems, hop, hbelief.factName?]
      rfl

section
variable {t : Tree} {ts : List Tree} {found : InitialTexts} {draft : Draft}

theorem perform_factsFrom_belief {text : String} (htext : formula t = .ok text) (hop : hasOperator text = true) :
    (factsFrom (t :: ts) found).perform draft =
      (factsFrom ts { found with beliefs := text :: found.beliefs }).perform draft := by
  rw [factsFrom, htext, Work.perform_bind_ok (Work.perform_ofExcept _ draft), if_pos hop]

theorem perform_factsFrom_fact {n : String} (hn : Names t n) {comma : Bool} (hcomma : commaBefore ts = .ok comma) :
    (factsFrom (t :: ts) found).perform draft = (factsFrom ts { found with facts := n :: found.facts }).perform
      { draft with text := draft.text ++ n ++ if comma then ", " else "" } := by
  rw [factsFrom, hn.1, Work.perform_bind_ok (Work.perform_ofExcept _ draft), hn.2]
  simp only [Bool.false_eq_true, if_false]
  rw [perform_write_bind, hcomma, Work.perform_bind_ok (Work.perform_ofExcept _ _)]
  cases comma with
  | false => simp
  | true =>
    simp only [if_true]
    rw [perform_write_bind]

end

/-- **What is written of facts and beliefs.** -/
theorem perform_factsFrom {ts : List Tree} (h : ∀ t ∈ ts, PlainFact t ∨ Belief t)
    (found : InitialTexts) (draft : Draft) :
    ∃ found', (factsFrom ts found).perform draft = (.ok found', { draft with text := draft.text ++ trueLine ts }) := by
  induction ts generalizing found draft with
  | nil => exact ⟨found, by rw [factsFrom, trueLine, String.append_empty]; rfl⟩
  | cons t ts ih =>
    obtain ⟨ht, hts⟩ := List.forall_mem_cons.1 h
    rcases ht with ⟨-, n, hn⟩ | hbelief
    · rw [perform_factsFrom_fact hn (commaBefore_eq hts), trueLine, factName?_eq_some.2 hn]
      obtain ⟨found', hrun⟩ := ih hts _ _
      exact ⟨found', by rw [hrun]; simp only [String.append_assoc]⟩
    · obtain ⟨head, rest, text, hitems, hop, htext⟩ := id hbelief
      rw [perform_factsFrom_belief htext (hasOperator_of_formula hitems hop htext), trueLine, hbelief.factName?]
      exact ih hts _ _

/-! ## Facts that stand together -/

/-- No formula that is no fact stands between two facts. -/
def Together (ts : List Tree) : Prop :=
  ∃ pre mid post, ts = pre ++ mid ++ post ∧ (∀ t ∈ pre ++ post, factName? t = none) ∧ ∀ t ∈ mid, factName? t ≠ none

section
variable {t u : Tree} {ts us : List Tree} {n m : String}

theorem trueLine_of_none (h : factName? t = none) : trueLine (t :: ts) = trueLine ts := by
  rw [trueLine, h]

theorem trueLine_of_some_some (ht : factName? t = some n) (hu : factName? u = some m) :
    trueLine (t :: u :: us) = n ++ ", " ++ trueLine (u :: us) := by
  rw [trueLine, ht]
  simp [hu]

theorem trueLine_of_some_none (ht : factName? t = some n) (hu : factName? u = none) :
    trueLine (t :: u :: us) = n ++ trueLine (u :: us) := by
  rw [trueLine, ht]
  simp [hu]

theorem factNames_of_none (h : factName? t = none) : factNames (t :: ts) = factNames ts := List.filterMap_cons_none h

theorem factNames_of_some (h : factName? t = some n) : factNames (t :: ts) = n :: factNames ts :=
  List.filterMap_cons_some h

theorem factNames_eq_nil_iff : factNames ts = [] ↔ ∀ t ∈ ts, factName? t = none := List.filterMap_eq_nil_iff

/-- No comma stands behind the last fact. -/
theorem trueLine_of_last (ht : factName? t = some n) (h : factNames ts = []) :
    trueLine (t :: ts) = String.intercalate ", " (factNames (t :: ts)) := by
  have hnone := factNames_eq_nil_iff.1 h
  have hrest : ∀ {ts : List Tree}, (∀ t ∈ ts, factName? t = none) → trueLine ts = "" := by
    intro ts
    induction ts with
    | nil => exact fun _ => rfl
    | cons u us ih =>
      intro hnone
      obtain ⟨hu, hus⟩ := List.forall_mem_cons.1 hnone
      rw [trueLine_of_none hu, ih hus]
  have hnext : ts.head?.bind factName? = none := by
    cases ts with
    | nil => rfl
    | cons u us => exact hnone u List.mem_cons_self
  rw [trueLine, ht, hrest hnone, hnext, factNames_of_some ht, h, String.intercalate_singleton]
  simp

theorem intercalate_factNames (ht : factName? t = some n) (hne : factNames ts ≠ []) :
    String.intercalate ", " (factNames (t :: ts)) = n ++ ", " ++ String.intercalate ", " (factNames ts) := by
  rw [factNames_of_some ht, String.intercalate_cons_of_ne_nil hne]

theorem together_of_none (h : factName? t = none) : Together (t :: ts) ↔ Together ts := by
  constructor
  · rintro ⟨pre, mid, post, heq, hnone, hsome⟩
    cases pre with
    | cons x pre =>
      obtain ⟨rfl, rfl⟩ := List.cons.inj heq
      exact ⟨pre, mid, post, rfl, (List.forall_mem_cons.1 hnone).2, hsome⟩
    | nil =>
      cases mid with
      | cons x mid =>
        obtain ⟨rfl, -⟩ := List.cons.inj heq
        exact absurd h (hsome t List.mem_cons_self)
      | nil =>
        rw [List.nil_append, List.nil_append] at heq
        subst heq
        exact ⟨[], [], ts, rfl, (List.forall_mem_cons.1 hnone).2, hsome⟩
  · rintro ⟨pre, mid, post, rfl, hnone, hsome⟩
    exact ⟨t :: pre, mid, post, rfl, List.forall_mem_cons.2 ⟨h, hnone⟩, hsome⟩

/-- Facts stand together behind a fact exactly if those that begin at once do. -/
theorem together_of_some (h : factName? t = some n) :
    Together (t :: ts) ↔ ∃ mid post, ts = mid ++ post ∧ (∀ t ∈ post, factName? t = none) ∧
      ∀ t ∈ mid, factName? t ≠ none := by
  have hne : factName? t ≠ none := by rw [h]; exact nofun
  constructor
  · rintro ⟨pre, mid, post, heq, hnone, hsome⟩
    cases pre with
    | cons x pre =>
      obtain ⟨rfl, -⟩ := List.cons.inj heq
      exact absurd (hnone t List.mem_cons_self) hne
    | nil =>
      cases mid with
      | nil =>
        rw [List.nil_append, List.nil_append] at heq
        subst heq
        exact absurd (hnone t List.mem_cons_self) hne
      | cons x mid =>
        obtain ⟨rfl, rfl⟩ := List.cons.inj heq
        exact ⟨mid, post, rfl, hnone, (List.forall_mem_cons.1 hsome).2⟩
  · rintro ⟨mid, post, rfl, hnone, hsome⟩
    exact ⟨[], t :: mid, post, rfl, hnone, List.forall_mem_cons.2 ⟨hne, hsome⟩⟩

theorem together_of_some_some (ht : factName? t = some n) (hu : factName? u = some m) :
    Together (t :: u :: us) ↔ Together (u :: us) := by
  rw [together_of_some ht, together_of_some hu]
  constructor
  · rintro ⟨mid, post, heq, hnone, hsome⟩
    cases mid with
    | nil =>
      rw [List.nil_append] at heq
      rw [hnone u (heq ▸ List.mem_cons_self)] at hu
      cases hu
    | cons x mid =>
      obtain ⟨rfl, rfl⟩ := List.cons.inj heq
      exact ⟨mid, post, rfl, hnone, (List.forall_mem_cons.1 hsome).2⟩
  · rintro ⟨mid, post, rfl, hnone, hsome⟩
    exact ⟨u :: mid, post, rfl, hnone, List.forall_mem_cons.2 ⟨by rw [hu]; exact nofun, hsome⟩⟩

theorem together_of_some_none (ht : factName? t = some n) (hu : factName? u = none) :
    Together (t :: u :: us) ↔ factNames (u :: us) = [] := by
  rw [together_of_some ht, factNames_eq_nil_iff]
  constructor
  · rintro ⟨mid, post, heq, hnone, hsome⟩
    cases mid with
    | nil =>
      rw [List.nil_append] at heq
      rwa [heq]
    | cons x mid =>
      obtain ⟨rfl, -⟩ := List.cons.inj heq
      exact absurd hu (hsome u List.mem_cons_self)
  · exact fun hnone => ⟨[], u :: us, rfl, hnone, nofun⟩

end

/-- A line never has more commas than names that are joined. -/
theorem length_trueLine_le (ts : List Tree) :
    (trueLine ts).length ≤ (String.intercalate ", " (factNames ts)).length := by
  induction ts with
  | nil => exact Nat.le_refl _
  | cons t ts ih =>
    cases ht : factName? t with
    | none => rwa [trueLine_of_none ht, factNames_of_none ht]
    | some n =>
      by_cases hne : factNames ts = []
      · exact Nat.le_of_eq (congrArg String.length (trueLine_of_last ht hne))
      · rw [intercalate_factNames ht hne, trueLine, ht]
        simp only [String.length_append]
        split <;> simp <;> omega

/-- **Facts are joined by commas exactly if they stand together.** -/
theorem trueLine_eq_iff (ts : List Tree) : trueLine ts = String.intercalate ", " (factNames ts) ↔ Together ts := by
  induction ts with
  | nil => exact iff_of_true rfl ⟨[], [], [], rfl, nofun, nofun⟩
  | cons t ts ih =>
    cases ht : factName? t with
    | none => rw [trueLine_of_none ht, factNames_of_none ht, together_of_none ht, ih]
    | some n =>
      cases ts with
      | nil => exact iff_of_true (trueLine_of_last ht rfl) ((together_of_some ht).2 ⟨[], [], rfl, nofun, nofun⟩)
      | cons u us =>
        cases hu : factName? u with
        | some m =>
          rw [trueLine_of_some_some ht hu, intercalate_factNames ht (by simp [factNames_of_some hu]),
            together_of_some_some ht hu, ← ih]
          exact String.append_right_inj _
        | none =>
          rw [together_of_some_none ht hu]
          by_cases hnames : factNames (u :: us) = []
          · exact iff_of_true (trueLine_of_last ht hnames) hnames
          · refine iff_of_false (fun heq => ?_) hnames
            -- the comma that is missing cannot be made up for
            have hlength := congrArg String.length heq
            rw [trueLine_of_some_none ht hu, intercalate_factNames ht hnames] at hlength
            simp only [String.length_append] at hlength
            have hle := length_trueLine_le (u :: us)
            have hcomma : ", ".length = 2 := rfl
            omega

end MAp

namespace Session

open MAp (PlainFact Belief trueLine factNames truthSection truthHead falseLine)

/-- **When the facts of the initial state are joined by commas.**  Of facts and beliefs in any order, the section of the
fluents that hold at first has the names of the facts in their order, and behind a fact a comma if a fact is next.  So
the names are joined by commas if and only if no belief stands between two facts. -/
theorem writeMAp_true_fluents_iff (p : Problem) (hstate : ∀ t ∈ p.state, PlainFact t ∨ Belief t) :
    (∀ fluents draft, ∃ found falses, (truthSection fluents p).perform draft =
      (.ok found, { draft with text := draft.text ++ truthHead ++ trueLine p.state ++ falseLine falses })) ∧
    (∀ folder s s', s.task.problem = some p → (writeMAp folder).perform s = (.ok (), s') →
      ∃ d before falses after, s.task.domain = some d ∧ s'.files.get? (mApPath folder s.task.dialect d p) =
        some (before ++ truthHead ++ trueLine p.state ++ falseLine falses ++ after)) ∧
    (trueLine p.state = String.intercalate ", " (factNames p.state) ↔
      ∃ pre mid post, p.state = pre ++ mid ++ post ∧ (∀ t ∈ pre ++ post, Belief t) ∧ ∀ t ∈ mid, PlainFact t) := by
  have hsection : ∀ fluents draft, ∃ found falses, (truthSection fluents p).perform draft =
      (.ok found, { draft with text := draft.text ++ truthHead ++ trueLine p.state ++ falseLine falses }) := by
    intro fluents draft
    obtain ⟨found, hfacts⟩ := MAp.perform_factsFrom hstate {} { draft with text := draft.text ++ truthHead }
    refine ⟨found, fluents.filter (!found.facts.contains ·), ?_⟩
    rw [truthSection, perform_write_bind]
    refine (Work.perform_bind_ok hfacts).trans ?_
    rw [perform_write_bind]
    rfl
  refine ⟨hsection, fun folder s s' hproblem hrun => ?_, ?_⟩
  · obtain ⟨d, p', actions, done, hd, hp, hdocument, hfile⟩ := writeMAp_ok hrun
    rw [hproblem] at hp
    cases hp
    obtain ⟨_, before, truth, _, _, rest, -, -, htruth, hrest⟩ := MAp.document_truth hdocument
    obtain ⟨found, falses, hwritten⟩ := hsection _ before
    rw [hwritten] at htruth
    cases htruth
    exact ⟨d, before.text, falses, rest, hd, hrest ▸ hfile⟩
  · rw [MAp.trueLine_eq_iff]
    constructor
    · rintro ⟨pre, mid, post, heq, hnone, hsome⟩
      have hmem : ∀ t, t ∈ pre ++ mid ++ post → PlainFact t ∨ Belief t := heq ▸ hstate
      refine ⟨pre, mid, post, heq, fun t ht => ?_, fun t ht => ?_⟩
      · refine (hmem t ?_).resolve_left fun hfact => MAp.PlainFact.factName?_ne_none hfact (hnone t ht)
        simp only [List.mem_append] at ht ⊢
        exact ht.imp_left .inl
      · refine (hmem t ?_).resolve_right fun hbelief => hsome t ht hbelief.factName?
        simp [ht]
    · rintro ⟨pre, mid, post, heq, hbeliefs, hfacts⟩
      exact ⟨pre, mid, post, heq, fun t ht => (hbeliefs t ht).factName?, fun t ht => (hfacts t ht).factName?_ne_none⟩

/-- A door that is shut and a lamp that is lit, and what ann believes of the door told between them. -/
def beliefBetween : Session := ofTexts .levels "(define (domain d) (:predicates (shut) (lit)))"
  "(define (problem p) (:domain d) (:agents ann) (:init (shut) ([ann](shut)) (lit)) (:goal (lit)))"

theorem writeMAp_true_fluents_iff_between : ∃ p s', beliefBetween.task.problem = some p ∧
    (∀ t ∈ p.state, PlainFact t ∨ Belief t) ∧ (writeMAp "out").perform beliefBetween = (.ok (), s') ∧
    (∃ d before falses after, beliefBetween.task.domain = some d ∧
      s'.files.get? (mApPath "out" beliefBetween.task.dialect d p) =
        some (before ++ truthHead ++ "shutlit" ++ falseLine falses ++ after)) ∧
    factNames p.state = ["shut", "lit"] ∧
    ¬ ∃ pre mid post, p.state = pre ++ mid ++ post ∧ (∀ t ∈ pre ++ post, Belief t) ∧ ∀ t ∈ mid, PlainFact t := by
  obtain ⟨hread, hok⟩ : beliefBetween.task.problem.map Problem.state = some [.list [.word "shut"],
      .list [.word "B(ann,", .word "shut"], .list [.word "lit"]] ∧
      ((writeMAp "out").perform beliefBetween).1.isOk = true := by decide +kernel
  obtain ⟨p, hp, hread⟩ := Option.map_eq_some_iff.1 hread
  have hstate : ∀ t ∈ p.state, PlainFact t ∨ Belief t := by
    rw [hread]
    simp only [List.forall_mem_cons, List.not_mem_nil, false_imp_iff, implies_true, and_true]
    exact ⟨.inl ⟨by decide, "shut", rfl, rfl⟩, .inr ⟨_, _, _, rfl, rfl, rfl⟩, .inl ⟨by decide, "lit", rfl, rfl⟩⟩
  have hline : trueLine p.state = "shutlit" ∧ factNames p.state = ["shut", "lit"] := by
    rw [hread]
    exact ⟨rfl, rfl⟩
  obtain ⟨-, hfile, hiff⟩ := writeMAp_true_fluents_iff p hstate
  refine ⟨p, _, hp, hstate, Work.ok_of_isOk hok, ?_, hline.2, mt hiff.2 ?_⟩
  · rw [← hline.1]
    exact hfile _ _ _ hp (Work.ok_of_isOk hok)
  · rw [hline.1, hline.2]
    decide

end Session
end Epistemic
