import Epistemic.Proofs.Demands
import Epistemic.Proofs.FilledWords
import Epistemic.Proofs.Statements
/-!
# Quantified clauses of observers

A clause `(forall (?v) rule)` or `(forall (diff (?v) (agents)) rule)`, where the rule is the variable itself or asks
something of it, goes through three hands: it is read with the variable marked, ground with the action that it belongs
to, and printed with a statement for each agent.  What comes out is said for all such clauses at once
(`QuantifiedClause.comesTo`).
-/
namespace Epistemic

open Source (IsPlainWord)
open Assignment (ofNames objectFor)
open MAp (terminated)

/-- A quantified clause: its variable, the agents to be left out, and what is asked of the others. -/
structure QuantifiedClause where
  var : String
  excluded : Option (List String)
  demand : Option Demand
  var_plain : IsPlainWord var
  var_marked : '?' ∈ var.toList
  excluded_plain : ∀ ds ∈ excluded, ∀ d ∈ ds, IsPlainWord d

namespace QuantifiedClause

variable (c : QuantifiedClause)

/-- What the quantifier ranges over. -/
def head : Tree :=
  match c.excluded with
  | none => .list [.word c.var]
  | some ds => .list [.word "diff", .list [.word c.var], .list (ds.map .word)]

def rule : Tree :=
  match c.demand with
  | none => .list [.word c.var]
  | some d => .list [.word "when", d.condition.tree, .list [.word c.var]]

/-- A clause as it is written. -/
def tree : Tree := .list [.word "forall", c.head, c.rule]

/-- The agents that are left out as far as the clause is concerned.  One that asks for nothing leaves out a blank name.
-/
def leftOut : List String :=
  match c.demand, c.excluded with
  | some _, some ds => ds
  | _, _ => [""]

/-- The beliefs of a sign in the guard of a clause. -/
def guarding (affirmed : Bool) : List Phrase :=
  match c.demand with
  | none => [.blank]
  | some d => d.guarding affirmed

/-- A clause with its beliefs and the names of the agents that it leaves out changed. -/
def clauseWith (change : Phrase → Phrase) (names : String → String) : Clause where
  body := .list [.word (marked c.var)]
  positive := ((c.guarding true).map change).map Phrase.tree
  negative := ((c.guarding false).map change).map Phrase.tree
  excluded := [.list ((c.leftOut.map names).map .word)]

/-- A clause as it is recorded. -/
def clause : Clause := c.clauseWith (.replaceFirst c.var (marked c.var)) id

/-- A clause with objects in place of variables. -/
def ground (vars objects : List String) : Clause :=
  c.clauseWith (fun φ => (φ.replaceFirst c.var (marked c.var)).filled vars objects) (objectFor vars objects)

/-! ## Reading -/

theorem quantifierHead_head (place : Place) (s : Scope) : quantifierHead place s c.head =
    .ok (.list [.word c.var], (c.excluded.map fun ds => [.list (ds.map .word)]).getD s.excluded) := by
  have hkeyword : Keyword.of? (.word c.var) = none := MAp.keyword?_of_mem (by decide) c.var_marked
  have hvars : headKeyword? (.list [.word c.var]) = .ok none := by simp [headKeyword?, Tree.items, hkeyword]
  have hdiff : (Tree.word c.var).isWord "diff" = false := by
    refine Bool.eq_false_iff.2 fun hw => ?_
    have heq : c.var = "diff" := by simpa [Tree.isWord] using hw
    have hmark := c.var_marked
    rw [heq] at hmark
    exact absurd hmark (by decide)
  unfold head
  cases c.excluded with
  | none =>
    have hfirst : (Tree.list [.word c.var]).item? 0 = some (.word c.var) := rfl
    simp only [quantifierHead, hfirst, Option.elim, bind, Except.bind, hdiff, Bool.false_eq_true, if_false, hvars]
    rfl
  | some ds =>
    have hfirst : (Tree.list [.word "diff", .list [.word c.var], .list (ds.map .word)]).item? 0 =
      some (.word "diff") := rfl
    have hword : (Tree.word "diff").isWord "diff" = true := by decide
    simp only [quantifierHead, hfirst, Option.elim, bind, Except.bind, hword, if_true, Tree.items, List.drop_succ_cons,
      List.drop_zero, hvars]
    rfl

theorem mentions_var : (Tree.word c.var).mentions "?" = true := (Text.occurs_singleton _ _).2 c.var_marked

theorem keyword?_marked (v : String) : Keyword.of? (.word (marked v)) = none :=
  MAp.keyword?_of_mem (by decide) (mark_mem_marked v)

theorem readWithin_name (place : Place) (fuel : Nat) (s : Scope) {w : String} (hw : Keyword.of? (.word w) = none)
    (r : Reading) : readWithin place (fuel + 1) s (.list [.word w]) r =
      ⟨r.addPositive s (.list [.word w]), .list [.word w], .ok (.literal (.list [.word w]))⟩ := by
  simp [readWithin, hw]

theorem markIfIn_name (v : String) : markIfIn (.word v) (.list [.word v]) = .ok (.list [.word (marked v)]) := by
  simp [markIfIn, standsIn, markFirst]

/-- The guard of a clause as it is recorded. -/
def guard : Guard := ⟨c.clause.positive, c.clause.negative⟩

/-- The entry of a clause whose guard has a given place. -/
def entry (place : Nat) : Entry := ⟨c.clause.body, place, c.clause.excluded⟩

theorem replaceFirst_blank (u : String) : Phrase.replaceFirst c.var u .blank = .blank := by
  have hne : ("" == c.var) = false := by
    refine beq_false_of_ne fun heq => c.var_plain.1 ?_
    rw [← heq]
    rfl
  simp [Phrase.blank, Phrase.replaceFirst, List.idxOf_cons, hne]

/-- **A rule is read as one entry**, with a guard of its own.  A rule that asks for nothing forgets whom the quantifier
leaves out. -/
theorem readForEach_rule (place : Place) (fuel : Nat) (hfuel : c.rule.depth ≤ fuel) (guard : Nat) (r : Reading) :
    readForEach (readWithin place (fuel + 1))
      ⟨guard, (c.excluded.map fun ds => [.list (ds.map .word)]).getD blankConditions, true⟩ [.word c.var] c.rule 0 r =
      ({ r with guards := r.guards ++ [c.guard], positive := r.positive ++ [c.entry r.guards.length] }, .ok ()) := by
  have hvar := c.mentions_var
  have hparen : '(' ∉ c.var.toList := c.var_plain.not_mem (by decide)
  unfold rule at hfuel ⊢
  unfold entry QuantifiedClause.guard clause clauseWith guarding leftOut
  cases hdemand : c.demand with
  | none =>
    have hin : standsIn (.word c.var) (.list [.word c.var]) = .ok true := by simp [standsIn]
    have hmark : markFirst (.word c.var) (.list [.word c.var]) = .ok (.list [.word (marked c.var)]) := by
      simp [markFirst]
    have hhead : headKeyword? (.list [.word (marked c.var)]) = .ok none := by
      simp [headKeyword?, Tree.items, keyword?_marked]
    simp only [readForEach, hvar, if_true, hin, hmark, hhead, Reading.addCopies, Reading.addGuard, Reading.addPositive,
      List.map_singleton, replaceFirst_blank]
    rfl
  | some d =>
    rw [hdemand] at hfuel
    simp only [Tree.depth, Tree.depthItems] at hfuel
    obtain ⟨fuel, rfl⟩ : ∃ n, fuel = n + 1 := ⟨fuel - 1, by omega⟩
    have hvarKeyword : Keyword.of? (.word c.var) = none := MAp.keyword?_of_mem (by decide) c.var_marked
    have hwhen : Keyword.of? (.word "when") = some .when := by decide
    have hin : standsIn (.word c.var) (.list [.word "when", d.condition.tree, .list [.word c.var]]) = .ok false := by
      have hword : Tree.word c.var ≠ .word "when" := fun heq => by
        rw [heq, hwhen] at hvarKeyword
        cases hvarKeyword
      have hcondition : Tree.word c.var ≠ d.condition.tree := by
        cases d with
        | one r =>
          unfold Demand.condition Condition.tree Literal.tree
          split <;> simp
        | all rs => simp [Demand.condition, Condition.tree]
      simp [standsIn, hword, hcondition]
    have hhead : headKeyword? (.list [.word "when", d.condition.tree, .list [.word c.var]]) = .ok (some .when) := rfl
    have hbody : headKeyword? (.list [.word c.var]) = .ok none := by simp [headKeyword?, Tree.items, hvarKeyword]
    have hcondition : readCondition place (readWithin place (fuel + 1)) d.condition.tree r = .ok d.condition.guard :=
      d.condition.readCondition_tree place (by omega) r
    have hrule : readWithin place (fuel + 1 + 1) ⟨0, blankConditions, false⟩
        (.list [.word "when", d.condition.tree, .list [.word c.var]]) r =
          ⟨(r.addGuard d.condition.guard).1, .list [],
            .ok (.conditional (.list [.word c.var]) d.condition.guard)⟩ := by
      simp only [readWithin, hwhen, readWhen, hcondition, hbody, hvarKeyword, Except.map, Reading.addPositive,
        Bool.false_eq_true, if_false]
    simp only [readForEach, hvar, if_true, hin, hhead, hrule, bind, Except.bind, markIfIn_name, d.guard_condition,
      Phrase.markEach_trees hparen, pure, Except.pure, Reading.addGuard,
      readWithin_name place (fuel + 1) _ (keyword?_marked c.var), Reading.addPositive, Reading.addCopies, List.map_id]
    cases c.excluded <;> rfl

/-- **A clause is read as one entry that stands for it.** -/
theorem addObservers_tree (a : Action) (known : List Entry) :
    ∃ guards e, a.addObservers known c.tree = .ok (guards, known ++ [e]) ∧ e.clause guards = c.clause := by
  have hforall : Keyword.of? (.word "forall") = some .forall := by decide
  have hdepth : c.tree.depth = max c.head.depth c.rule.depth + 1 := by simp [tree, Tree.depth, Tree.depthItems]
  have hread := c.readForEach_rule ⟨a.name ++ " agents", true⟩ (max c.head.depth c.rule.depth) (by omega)
    a.guards.length ⟨a.guards ++ [Guard.blank], known, []⟩
  have hclause : readClause ⟨a.name ++ " agents", true⟩ c.tree ⟨a.guards, known, []⟩ =
      ⟨⟨a.guards ++ [Guard.blank] ++ [c.guard], known ++ [c.entry (a.guards ++ [Guard.blank]).length], []⟩, .list [],
        .ok .quantified⟩ := by
    simp only [readClause, Reading.addGuard, readEffect, hdepth]
    simp only [tree, readWithin, hforall, if_true, readForall, quantifierHead_head, Tree.items, hread]
    rfl
  refine ⟨a.guards ++ [Guard.blank] ++ [c.guard], c.entry (a.guards ++ [Guard.blank]).length,
    by rw [Action.addObservers, hclause], ?_⟩
  have hplace : guardAt (a.guards ++ [Guard.blank] ++ [c.guard]) (a.guards ++ [Guard.blank]).length = c.guard := by
    simp [guardAt]
  rw [Entry.clause, entry, hplace]
  rfl

/-! ## Grounding -/

/-- The beliefs that a clause asks for with a sign. -/
def asked (affirmed : Bool) : List Phrase :=
  match c.demand with
  | none => []
  | some d => d.asked affirmed

/-- The condition of a clause whose beliefs are changed. -/
def text (change : Phrase → Phrase) : String :=
  Phrase.conditionText ((c.asked true).map change) ((c.asked false).map change)

/-- All that a clause asks for is in plain words, and its operators are settled. -/
def Settles (vars objects : List String) : Prop :=
  ∀ φ ∈ c.asked true ++ c.asked false, φ.Each IsPlainWord (SettledOperator vars objects)

theorem lists_guarding {change : Phrase → Phrase} (hblank : change .blank = .blank) (affirmed : Bool) :
    MAp.Lists (((c.guarding affirmed).map change).map Phrase.tree) ((c.asked affirmed).map change) := by
  unfold guarding asked
  cases c.demand with
  | none =>
    rw [List.map_singleton, hblank]
    exact .inr ⟨rfl, rfl⟩
  | some d => exact d.lists_guarding hblank affirmed

section
variable {c} {vars objects : List String}

theorem Settles.of_mem_asked (hc : c.Settles vars objects) {affirmed : Bool} {φ : Phrase} (hφ : φ ∈ c.asked affirmed) :
    φ.Each IsPlainWord (SettledOperator vars objects) := by
  refine hc φ (List.mem_append.2 ?_)
  cases affirmed with
  | true => exact .inl hφ
  | false => exact .inr hφ

theorem Settles.of_mem_guarding (hc : c.Settles vars objects) {affirmed : Bool} {φ : Phrase}
    (hφ : φ ∈ c.guarding affirmed) : φ.IsSpelled vars objects := by
  have hasked : φ = .blank ∨ φ ∈ c.asked affirmed := by
    unfold guarding at hφ
    unfold asked
    cases hdemand : c.demand with
    | none =>
      rw [hdemand] at hφ
      exact .inl (List.mem_singleton.1 hφ)
    | some d =>
      rw [hdemand] at hφ
      exact Demand.mem_guarding hφ
  rcases hasked with rfl | hasked
  · exact ⟨List.cons_ne_nil _ _, by simp [IsSpelledOut]⟩
  · exact (hc.of_mem_asked hasked).imp (fun _ hw => hw.2) fun _ hop => hop

theorem parenthesis_not_mem_leftOut : ∀ w ∈ c.leftOut, '(' ∉ w.toList := by
  intro w hw
  unfold leftOut at hw
  cases hdemand : c.demand with
  | none =>
    rw [hdemand] at hw
    rw [List.mem_singleton.1 hw]
    decide
  | some d =>
    cases hexcluded : c.excluded with
    | none =>
      rw [hdemand, hexcluded] at hw
      rw [List.mem_singleton.1 hw]
      decide
    | some ds =>
      rw [hdemand, hexcluded] at hw
      exact (c.excluded_plain ds hexcluded w hw).not_mem (by decide)

variable (h : ObjectsFor vars objects)
include h

theorem perform_substitute_names (ws : List String) (hws : ∀ w ∈ ws, '(' ∉ w.toList) (l : Fluents) :
    (substitute (ofNames vars objects) false (.list (ws.map .word))).perform l =
      (.ok (.list ((ws.map (objectFor vars objects)).map .word)), l) := by
  by_cases hne : ws = []
  · subst hne
    have hfill : Assignment.fillItems (vars.map .word) (objects.map .word) [] = .ok [] :=
      Assignment.fillItems_trees [] h.length h.apart
    rw [substitute, substituteWithin]
    simp only [List.map_nil, Tree.items, List.length_nil, List.range_zero, List.foldlM_nil]
    rw [Work.perform_bind_ok (Work.perform_pure _ l)]
    refine (Work.perform_bind_ok (Work.perform_ofExcept (.ok []) l)).trans ?_
    rw [ofNames, hfill, Work.perform_bind_ok (Work.perform_ofExcept _ l)]
    rfl
  · exact Phrase.perform_substitute h (φ := .atom ws) ⟨hne, hws⟩ l

/-- **A clause is ground as a whole**, and its marks stay. -/
theorem perform_substituteClauses (hc : c.Settles vars objects) (l : Fluents) :
    (substituteClauses (ofNames vars objects) false [c.clause]).perform l = (.ok [c.ground vars objects], l) := by
  have hmark : '(' ∉ (marked c.var).toList := by
    rw [marked, String.toList_append, String.toList_append, List.mem_append, List.mem_append, not_or, not_or]
    exact ⟨⟨by decide, c.var_plain.not_mem (by decide)⟩, by decide⟩
  have hkept : objectFor vars objects (marked c.var) = marked c.var := Assignment.objectFor_of_not_mem fun hmem =>
    (h.plain _ hmem).not_mem (by decide) (mark_mem_marked c.var)
  have hbody : (substitute (ofNames vars objects) false c.clause.body).perform l = (.ok c.clause.body, l) := by
    have hword := perform_substitute_names h [marked c.var] (List.forall_mem_singleton.2 hmark) l
    simp only [List.map_singleton, hkept] at hword
    exact hword
  have hbeliefs : ∀ affirmed, (substituteEach (ofNames vars objects) false
      (((c.guarding affirmed).map (Phrase.replaceFirst c.var (marked c.var))).map Phrase.tree)).perform l =
      (.ok (((c.guarding affirmed).map fun φ => (φ.replaceFirst c.var (marked c.var)).filled vars objects).map
        Phrase.tree), l) := by
    intro affirmed
    have hsettled : ∀ φ ∈ (c.guarding affirmed).map (Phrase.replaceFirst c.var (marked c.var)),
        φ.IsSettled vars objects := by
      intro φ hφ
      obtain ⟨ψ, hψ, rfl⟩ := List.mem_map.1 hφ
      exact Phrase.Each.replaceFirst (hc.of_mem_guarding hψ).isSettled hmark _
    rw [Phrase.perform_substituteEach h l hsettled]
    simp only [List.map_map, Function.comp_def]
  have hnames : (substituteEach (ofNames vars objects) false [.list ((c.leftOut.map id).map .word)]).perform l =
      (.ok [.list ((c.leftOut.map (objectFor vars objects)).map .word)], l) := by
    rw [List.map_id, substituteEach, Work.perform_bind_ok (perform_substitute_names h _ parenthesis_not_mem_leftOut l)]
    rfl
  have hparts : (substituteClause (ofNames vars objects) false c.clause.tree).perform l =
      (.ok (c.ground vars objects), l) := by
    have hpart : ∀ {i t}, c.clause.tree.item? i = some t →
        (substituteClause.part c.clause.tree i).perform l = (.ok t, l) :=
      fun hi => by rw [substituteClause.part, hi]; rfl
    rw [substituteClause, Work.perform_bind_ok (hpart (i := 0) rfl), Work.perform_bind_ok hbody,
      Work.perform_bind_ok (hpart (i := 1) rfl)]
    refine (Work.perform_bind_ok (hbeliefs true)).trans ?_
    rw [Work.perform_bind_ok (hpart (i := 2) rfl)]
    refine (Work.perform_bind_ok (hbeliefs false)).trans ?_
    rw [Work.perform_bind_ok (hpart (i := 3) rfl)]
    exact (Work.perform_bind_ok hnames).trans rfl
  rw [substituteClauses, Work.perform_bind_ok hparts]
  rfl

omit h in
theorem ground_nil : c.ground [] [] = c.clause := by
  have hnames : objectFor [] [] = id := rfl
  simp only [ground, clause, Phrase.filled_nil, hnames]

end

/-! ## Printing -/

/-- A belief of a ground action as it is printed for an agent. -/
def filledFor (vars objects : List String) (x : String) (φ : Phrase) : Phrase :=
  (φ.replaceFirst c.var x).filled vars objects

/-- The statement of an agent: whom it is about, what it says, and what is asked for. -/
def statement (name verb : String) (change : String → Phrase → Phrase) (x : String) : String :=
  x ++ verb ++ name ++ c.text (change x)

/-- The agents that have a statement. -/
def kept (vars objects agents : List String) : List String :=
  match c.leftOut with
  | [] => []
  | d :: _ => agents.filter (· != objectFor vars objects d)

/-- Printing goes well, unless there are agents and the clause leaves out none by name. -/
def outcome (agents : List String) : Except Fault Unit :=
  if c.leftOut = [] ∧ agents ≠ [] then .error .missingItem else .ok ()

end QuantifiedClause

/-- The name of an agent, which is none of the variables and a template of itself. -/
structure IsAgentName (vars : List String) (x : String) : Prop where
  plain : IsPlainWord x
  backslash : '\\' ∉ x.toList
  apart : x ∉ vars

namespace QuantifiedClause

section
variable {c : QuantifiedClause} {vars objects : List String} (h : ObjectsFor vars objects)
  (hc : c.Settles vars objects)
include h hc

omit hc in
theorem isPlain_filledFor {x : String} (hx : IsPlainWord x) {φ : Phrase}
    (hφ : φ.Each IsPlainWord (SettledOperator vars objects)) : (c.filledFor vars objects x φ).IsPlain :=
  (Phrase.Each.filled h (hφ.replaceFirst hx _) fun o ho => (h.agent o ho).1).imp (fun _ hw => hw)
    fun _ has a ha => (has a ha).1

/-- **The guard of a ground clause is printed with the agent where the variable stood first.** -/
theorem guard_forAgent {x : String} (hx : IsAgentName vars x) :
    ∃ g left printed, Guard.forAgent x ⟨(c.ground vars objects).positive, (c.ground vars objects).negative⟩ = .ok g ∧
      MAp.guard g = ⟨c.text (c.filledFor vars objects x), left, .ok printed⟩ := by
  have hfill : ∀ affirmed, fillConditions x ((((c.guarding affirmed).map fun φ =>
      (φ.replaceFirst c.var (marked c.var)).filled vars objects).map Phrase.tree).map itemized) =
      .ok (((c.guarding affirmed).map (c.filledFor vars objects x)).map Phrase.tree) := by
    intro affirmed
    have hspelled : ∀ φ ∈ c.guarding affirmed, φ.IsSpelled vars objects := fun φ hφ => hc.of_mem_guarding hφ
    have hmarked := Phrase.fillConditions_marked h c.var_plain hx.plain hx.apart hx.backslash hspelled
    simp only [List.map_map] at hmarked ⊢
    exact hmarked
  have hblank : c.filledFor vars objects x .blank = .blank := by
    have hempty : objectFor vars objects "" = "" :=
      Assignment.objectFor_of_not_mem fun hmem => (h.plain _ hmem).1 rfl
    rw [filledFor, c.replaceFirst_blank, Phrase.blank, Phrase.filled, List.map_singleton, hempty]
  have hplain : ∀ φ ∈ (c.asked true).map (c.filledFor vars objects x) ++
      (c.asked false).map (c.filledFor vars objects x), φ.IsPlain := by
    intro φ hφ
    rw [← List.map_append] at hφ
    obtain ⟨ψ, hψ, rfl⟩ := List.mem_map.1 hφ
    exact isPlain_filledFor h hx.plain (hc ψ hψ)
  obtain ⟨left, printed, hguard⟩ := MAp.guard_beliefs (g := ⟨_, _⟩) (c.lists_guarding hblank true)
    (c.lists_guarding hblank false) hplain
  refine ⟨_, left, printed, ?_, hguard⟩
  rw [Guard.forAgent, Guard.filled]
  exact except_bind_eq_ok.2 ⟨_, hfill true, except_bind_eq_ok.2 ⟨_, hfill false, rfl⟩⟩

variable {e : Entry} {sheet : Sheet} (name verb : String)

/-- **An agent has a statement, unless it is the first that is left out.** -/
theorem perform_quantifiedObserver (he : e.clause sheet.guards = c.ground vars objects) {d : String} {ds : List String}
    (hout : c.leftOut = d :: ds) {x : String} (hx : IsAgentName vars x) :
    (MAp.quantifiedObserver name verb e (.word x)).perform sheet = (.ok (), { sheet with
      text := sheet.text ++ terminated (([x].filter (· != objectFor vars objects d)).map
        (c.statement name verb (c.filledFor vars objects))) }) := by
  have hexcluded : e.excluded = [.list ((c.leftOut.map (objectFor vars objects)).map .word)] :=
    congrArg Clause.excluded he
  have hguard : guardAt sheet.guards e.guard =
      ⟨(c.ground vars objects).positive, (c.ground vars objects).negative⟩ := by
    have hpos := congrArg Clause.positive he
    have hneg := congrArg Clause.negative he
    exact congrArg₂ Guard.mk hpos hneg
  have hleaves : MAp.leavesOut e (.word x) = .ok (x == objectFor vars objects d) := by
    have hitem : (Tree.list ((c.leftOut.map (objectFor vars objects)).map .word)).item? 0 =
        some (.word (objectFor vars objects d)) := by
      rw [hout]
      rfl
    have hsame : ∀ y z, (Tree.word y == Tree.word z) = (y == z) := fun y z => by
      rw [Bool.eq_iff_iff, beq_iff_eq, beq_iff_eq, Tree.word.injEq]
    simp only [MAp.leavesOut, hexcluded, hitem, Tree.isWord, hsame]
    by_cases heq : x = objectFor vars objects d
    · -- a name that is left out is not blank
      have hne : x ≠ "" := by
        rintro rfl
        exact hx.plain.1 rfl
      rw [← heq, beq_false_of_ne hne]
      rfl
    · rw [beq_false_of_ne heq, Bool.and_false]
  rw [MAp.quantifiedObserver_eq]
  rw [hleaves, Work.perform_bind_ok (Work.perform_ofExcept _ sheet)]
  by_cases heq : (x == objectFor vars objects d) = true
  · rw [if_pos heq, List.filter_singleton, bne, heq]
    simp [terminated]
  · obtain ⟨g, left, printed, hfor, hprinted⟩ := guard_forAgent h hc hx
    rw [if_neg heq, List.filter_singleton, bne, Bool.eq_false_iff.2 heq]
    simp only [Sheet.nameOf, pure_bind]
    rw [Sheet.perform_write_bind, Sheet.perform_guard_bind]
    simp only [hguard, hfor]
    rw [Work.perform_bind_ok (Work.perform_ofExcept _ _), hprinted,
      Work.perform_bind_ok (Sheet.perform_writePrinted _ _)]
    simp [terminated, statement, String.append_assoc]

/-- **The agents have statements in order**, but for those that are the first that is left out. -/
theorem perform_each_quantifiedObserver {d : String} {ds : List String} (hout : c.leftOut = d :: ds)
    {agents : List String} (hagents : ∀ x ∈ agents, IsAgentName vars x) :
    ∀ sheet : Sheet, e.clause sheet.guards = c.ground vars objects →
    (Work.each (MAp.quantifiedObserver name verb e) (agents.map .word)).perform sheet =
      (.ok (), { sheet with
        text := sheet.text ++ terminated ((agents.filter (· != objectFor vars objects d)).map
          (c.statement name verb (c.filledFor vars objects))) }) := by
  induction agents with
  | nil =>
    intro sheet _
    simp [Work.each, terminated]
  | cons x agents ih =>
    intro sheet he
    obtain ⟨hx, hagents⟩ := List.forall_mem_cons.1 hagents
    have hfilter : (x :: agents).filter (· != objectFor vars objects d) =
        [x].filter (· != objectFor vars objects d) ++ agents.filter (· != objectFor vars objects d) :=
      List.filter_append [x] agents
    rw [List.map_cons, Work.each, Work.perform_bind_ok (perform_quantifiedObserver h hc name verb he hout hx),
      ih hagents]
    · rw [hfilter, List.map_append, MAp.terminated_append, String.append_assoc]
    · exact he

/-- **What is printed for a ground clause.** -/
theorem perform_observers (he : e.clause sheet.guards = c.ground vars objects) {agents : List String}
    (hagents : ∀ x ∈ agents, IsAgentName vars x) :
    (MAp.observers (.ok (agents.map .word)) name verb [e]).perform sheet =
      (c.outcome agents, { sheet with
        text := sheet.text ++ terminated ((c.kept vars objects agents).map
          (c.statement name verb (c.filledFor vars objects))) }) := by
  have hbody : e.body.items = [.word (marked c.var)] := by
    rw [show e.body = .list [.word (marked c.var)] from congrArg Clause.body he]
    rfl
  have heach : (MAp.observers (.ok (agents.map .word)) name verb [e]).perform sheet =
      (Work.each (MAp.quantifiedObserver name verb e) (agents.map .word)).perform sheet := by
    rw [MAp.observers, Work.perform_each_singleton, hbody, Work.perform_each_singleton, MAp.observer,
      if_pos (isMarked_marked c.var), Work.perform_bind_ok (Work.perform_ofExcept _ sheet)]
  rw [heach]
  unfold outcome kept
  cases hout : c.leftOut with
  | nil =>
    cases agents with
    | nil => simp [Work.each, terminated]
    | cons x agents =>
      have hexcluded : e.excluded = [.list []] := by
        rw [show e.excluded = [.list ((c.leftOut.map (objectFor vars objects)).map .word)]
          from congrArg Clause.excluded he, hout]
        rfl
      have hleaves : MAp.leavesOut e (.word x) = .error .missingItem := by
        simp [MAp.leavesOut, hexcluded, Tree.item?, Tree.items]
      have hstop : (MAp.quantifiedObserver name verb e (.word x)).perform sheet = (.error .missingItem, sheet) := by
        rw [MAp.quantifiedObserver_eq]
        rw [hleaves]
        exact Work.perform_bind_error (Work.perform_ofExcept _ sheet)
      rw [List.map_cons, Work.each, Work.perform_bind_error hstop]
      simp [terminated]
  | cons d ds =>
    rw [perform_each_quantifiedObserver h hc name verb hout hagents _ he]
    simp

end
end QuantifiedClause

/-! ## From the text to the statements -/

/-- What becomes of a clause of observers: it is read as one entry, it is ground with objects for the variables of its
action, and wherever the ground clause stands, printing it for the agents ends in an outcome and adds a text. -/
def ComesTo (a : Action) (known : List Entry) (t : Tree) (vars objects agents : List String) (name verb : String)
    (outcome : Except Fault Unit) (text : String) : Prop :=
  ∃ guards e ground, a.addObservers known t = .ok (guards, known ++ [e]) ∧
    (∀ l, (substituteClauses (ofNames vars objects) false [e.clause guards]).perform l = (.ok [ground], l)) ∧
    (vars = [] → ground = e.clause guards) ∧
    ∀ (e' : Entry) (sheet : Sheet), e'.clause sheet.guards = ground →
      (MAp.observers (.ok (agents.map .word)) name verb [e']).perform sheet =
        (outcome, { sheet with text := sheet.text ++ text })

theorem ComesTo.unique {a : Action} {known : List Entry} {t : Tree} {vars objects agents : List String}
    {name verb text text' : String} {outcome outcome' : Except Fault Unit}
    (h : ComesTo a known t vars objects agents name verb outcome text)
    (h' : ComesTo a known t vars objects agents name verb outcome' text') : outcome = outcome' ∧ text = text' := by
  obtain ⟨guards, e, ground, hread, hground, -, hprint⟩ := h
  obtain ⟨guards', e', ground', hread', hground', -, hprint'⟩ := h'
  rw [hread, Except.ok.injEq, Prod.mk.injEq] at hread'
  obtain ⟨rfl, hentries⟩ := hread'
  obtain rfl := List.singleton_inj.1 (List.append_cancel_left hentries)
  have hsame := (hground []).symm.trans (hground' [])
  obtain rfl : ground = ground' := List.singleton_inj.1 (Except.ok.inj (Prod.mk.inj hsame).1)
  -- a sheet that holds nothing but the guard of the clause
  have hrun := hprint ⟨ground.body, 0, ground.excluded⟩ { guards := [⟨ground.positive, ground.negative⟩] } rfl
  have hrun' := hprint' ⟨ground.body, 0, ground.excluded⟩ { guards := [⟨ground.positive, ground.negative⟩] } rfl
  obtain ⟨houtcome, hsheet⟩ := Prod.mk.inj (hrun.symm.trans hrun')
  exact ⟨houtcome, by simpa using congrArg Sheet.text hsheet⟩

/-- **What a quantified clause comes to**: a statement for each agent but the first one that it leaves out, with the
agent where the variable stood first in each belief that is asked for. -/
theorem QuantifiedClause.comesTo (a : Action) (known : List Entry) {c : QuantifiedClause}
    {vars objects agents : List String} (h : ObjectsFor vars objects) (hc : c.Settles vars objects)
    (hagents : ∀ x ∈ agents, IsAgentName vars x) (name verb : String) :
    ComesTo a known c.tree vars objects agents name verb (c.outcome agents)
      (terminated ((c.kept vars objects agents).map (c.statement name verb (c.filledFor vars objects)))) := by
  obtain ⟨guards, e, hread, hclause⟩ := c.addObservers_tree a known
  refine ⟨guards, e, c.ground vars objects, hread, ?_, ?_, fun e' sheet he => ?_⟩
  · rw [hclause]
    exact perform_substituteClauses h hc
  · rintro rfl
    obtain rfl : objects = [] := List.length_eq_zero_iff.1 h.length
    rw [ground_nil, hclause]
  · exact perform_observers h hc name verb he hagents

end Epistemic
