import Epistemic.Proofs.Documents
import Epistemic.Proofs.GuardCopies
import Mathlib.Data.List.Forall2
/-!
# The statements of an action

A ground action in mAp has a statement that says when it can be executed, and then one for each effect and for each
agent that observes it.  All end with a semicolon but the first, which has its end from its preconditions: an action
that has none runs into the statement behind it (`action_ok`).
-/
namespace Epistemic

/-- Whether an action has preconditions. -/
def Action.hasPreconditions (a : Action) : Bool :=
  !(a.positivePreconditions.isEmpty && a.negativePreconditions.isEmpty)

namespace MAp

open Work (perform_bind_eq_ok perform_ofExcept_bind_eq_ok)
open Sheet (perform_printGuard perform_writePrinted)

/-! ## Lines and statements -/

/-- What a statement says, the place of its guard, and the agent that the guard is filled in for, if it is quantified.
-/
structure Line where
  head : String
  guard : Nat
  agent : Option String := none

namespace Line

/-- The guard behind a line. -/
def guardIn (guards : List Guard) (l : Line) : Except Fault Guard :=
  match l.agent with
  | none => .ok (guardAt guards l.guard)
  | some agent => (guardAt guards l.guard).forAgent agent

/-- The statement of a line: what it says, with its conditions behind it. -/
def statement (guards : List Guard) (l : Line) : Except Fault String := do
  let g ← l.guardIn guards
  let _ ← (MAp.guard g).outcome
  return l.head ++ (MAp.guard g).text

/-- The guards after a line.  A guard that is filled in for an agent is a copy. -/
def leaves (guards : List Guard) (l : Line) : List Guard :=
  match l.agent with
  | none => guards.set l.guard (MAp.guard (guardAt guards l.guard)).left
  | some _ => guards

end Line

/-- The statements of lines, in order. -/
def statements : List Line → List Guard → Except Fault (List String)
  | [], _ => .ok []
  | l :: ls, guards => do
    let first ← l.statement guards
    let rest ← statements ls (l.leaves guards)
    return first :: rest

/-- Statements one behind the other, each with its end. -/
def terminated (ss : List String) : String := String.join (ss.map (· ++ ";\n"))

theorem terminated_cons (s : String) (ss : List String) : terminated (s :: ss) = s ++ ";\n" ++ terminated ss := by
  simp only [terminated, List.map_cons, String.join_cons]

theorem terminated_append (ss ss' : List String) : terminated (ss ++ ss') = terminated ss ++ terminated ss' := by
  simp only [terminated, List.map_append, String.join_append]

theorem terminated_singleton (s : String) : terminated [s] = s ++ ";\n" := by
  simp [terminated]

theorem statements_append {ls ls' : List Line} {ss ss' : List String} {guards : List Guard}
    (h : statements ls guards = .ok ss) (h' : statements ls' (ls.foldl Line.leaves guards) = .ok ss') :
    statements (ls ++ ls') guards = .ok (ss ++ ss') := by
  induction ls generalizing guards ss with
  | nil =>
    cases h
    exact h'
  | cons l ls ih =>
    rw [statements] at h
    obtain ⟨first, hfirst, h⟩ := except_bind_eq_ok.1 h
    obtain ⟨rest, hrest, h⟩ := except_bind_eq_ok.1 h
    cases h
    rw [List.cons_append, statements]
    exact except_bind_eq_ok.2 ⟨first, hfirst, except_bind_eq_ok.2 ⟨rest ++ ss', ih hrest h', rfl⟩⟩

/-- What one part of an action gives before what another gives. -/
def bothOf {β : Type} (a b : Except Fault (List β)) : Except Fault (List β) := do
  let first ← a
  let rest ← b
  return first ++ rest

/-- What each of a list gives, in order. -/
def allOf {α β : Type} (f : α → Except Fault (List β)) : List α → Except Fault (List β)
  | [] => .ok []
  | a :: as => bothOf (f a) (allOf f as)

theorem bothOf_map {β γ : Type} (g : β → γ) (a b : Except Fault (List β)) :
    (bothOf a b).map (List.map g) = bothOf (a.map (List.map g)) (b.map (List.map g)) := by
  rcases a with e | xs
  · rfl
  · rcases b with e | ys
    · rfl
    · exact congrArg Except.ok List.map_append

theorem allOf_map {α β γ : Type} (f : α → Except Fault (List β)) (g : β → γ) (as : List α) :
    (allOf f as).map (List.map g) = allOf (fun a => (f a).map (List.map g)) as := by
  induction as with
  | nil => rfl
  | cons a as ih => rw [allOf, allOf, bothOf_map, ih]

/-- The line of an effect. -/
def effectLine (name verb sign : String) (e : Entry) : Except Fault (List Line) :=
  (formula e.body).map fun text => [{ head := name ++ verb ++ (sign ++ text), guard := e.guard }]

/-- An agent that observes an action, how it does, and under which guard.  The guard of a quantified clause is filled in
for the agent. -/
structure Observer where
  agent : String
  verb : String
  guard : Nat
  quantified : Bool

def Observer.line (name : String) (o : Observer) : Line :=
  { head := o.agent ++ o.verb ++ name, guard := o.guard, agent := if o.quantified then some o.agent else none }

/-- An agent as an observer by a quantified clause, unless the clause leaves the agent out. -/
def quantifiedOver (verb : String) (e : Entry) (agent : Tree) : Except Fault (List Observer) := do
  if ← leavesOut e agent then
    return []
  let agent ← agent.name
  return [⟨agent, verb, e.guard, true⟩]

/-- The observers that a name in a clause stands for. -/
def namedBy (agents : Except Fault (List Tree)) (verb : String) (e : Entry) (ag : Tree) :
    Except Fault (List Observer) :=
  if isMarked ag then agents.bind (allOf (quantifiedOver verb e)) else .ok [⟨ag.shown, verb, e.guard, false⟩]

/-- The observers of clauses. -/
def observersBy (agents : Except Fault (List Tree)) (verb : String) (es : List Entry) : Except Fault (List Observer) :=
  allOf (fun e => allOf (namedBy agents verb e) e.body.items) es

/-- The agents that observe an action fully, and then those that observe it in part. -/
def observersOf (agents : Except Fault (List Tree)) (a : Action) : Except Fault (List Observer) :=
  match a.observers with
  | .levels full inPart => bothOf (observersBy agents " observes " full) (observersBy agents " aware_of " inPart)
  | .groups _ => .ok []

/-- The lines of an action: one for each effect that comes about, for each that goes, and for each observing agent. -/
def actionLines (agents : Except Fault (List Tree)) (a : Action) : Except Fault (List Line) :=
  bothOf
    (bothOf (allOf (effectLine a.name (effectVerb .levels a.kind) "") a.addEffects)
      (allOf (effectLine a.name (effectVerb .levels a.kind) "-") a.deleteEffects))
    ((observersOf agents a).map (List.map (Observer.line a.name)))

/-- The statements of an action behind that of its preconditions. -/
def actionStatements (agents : Except Fault (List Tree)) (a : Action) : Except Fault (List String) := do
  let ls ← actionLines agents a
  statements ls a.guards

/-! ## Printing -/

/-- Steps that write the statements of lines, each with its end. -/
def Prints (w : Work Sheet Unit) (lines : Except Fault (List Line)) : Prop :=
  ∀ sheet done, w.perform sheet = (.ok (), done) → ∃ ls ss, lines = .ok ls ∧ statements ls sheet.guards = .ok ss ∧
    done = { sheet with text := sheet.text ++ terminated ss, guards := ls.foldl Line.leaves sheet.guards }

theorem prints_pure : Prints (pure ()) (.ok []) := by
  intro sheet done h
  cases h
  exact ⟨[], [], rfl, rfl, by simp [terminated]⟩

theorem Prints.bind {v w : Work Sheet Unit} {a b : Except Fault (List Line)} (hv : Prints v a) (hw : Prints w b) :
    Prints (v >>= fun _ => w) (bothOf a b) := by
  intro sheet done h
  obtain ⟨_, mid, hfirst, hrest⟩ := perform_bind_eq_ok.1 h
  obtain ⟨ls, ss, rfl, hss, rfl⟩ := hv sheet mid hfirst
  obtain ⟨ls', ss', rfl, hss', rfl⟩ := hw _ done hrest
  refine ⟨ls ++ ls', ss ++ ss', rfl, statements_append hss hss', ?_⟩
  simp only [terminated_append, List.foldl_append, String.append_assoc]

theorem Prints.each {α : Type} {f : α → Work Sheet Unit} {g : α → Except Fault (List Line)}
    (h : ∀ a, Prints (f a) (g a)) : ∀ as : List α, Prints (Work.each f as) (allOf g as)
  | [] => prints_pure
  | a :: as => (h a).bind (Prints.each h as)

theorem statements_singleton {l : Line} {guards : List Guard} {g : Guard} {printed : Bool}
    (hg : l.guardIn guards = .ok g) (hok : (guard g).outcome = .ok printed) :
    statements [l] guards = .ok [l.head ++ (guard g).text] := by
  have hstatement : l.statement guards = .ok (l.head ++ (guard g).text) :=
    except_bind_eq_ok.2 ⟨g, hg, except_bind_eq_ok.2 ⟨printed, hok, rfl⟩⟩
  rw [statements, hstatement]
  rfl

/-- What was said, with the conditions of a guard and its end behind it, is one statement. -/
theorem statements_of_printGuard {l : Line} (hl : l.agent = none) {sheet done : Sheet}
    (h : (do let _ ← Sheet.printGuard guard l.guard; Sheet.write ";\n").perform
      { sheet with text := sheet.text ++ l.head } = (.ok (), done)) :
    ∃ ss, statements [l] sheet.guards = .ok ss ∧
      done = { sheet with text := sheet.text ++ terminated ss, guards := l.leaves sheet.guards } := by
  obtain ⟨printed, mid, hguard, h⟩ := perform_bind_eq_ok.1 h
  rw [perform_printGuard] at hguard
  obtain ⟨hok, rfl⟩ := Prod.mk.inj hguard
  obtain ⟨-, rfl⟩ := Prod.mk.inj h
  have hg : l.guardIn sheet.guards = .ok (guardAt sheet.guards l.guard) := by rw [Line.guardIn, hl]
  refine ⟨_, statements_singleton hg hok, ?_⟩
  simp only [terminated_singleton, Line.leaves, hl, String.append_assoc]

/-- **An effect is one statement.** -/
theorem prints_effect (name verb sign : String) (e : Entry) :
    Prints (effect name verb sign e) (effectLine name verb sign e) := by
  intro sheet done h
  rw [effect, Sheet.perform_write_bind] at h
  obtain ⟨text, htext, h⟩ := perform_ofExcept_bind_eq_ok.1 h
  rw [Sheet.perform_write_bind, String.append_assoc] at h
  let l : Line := { head := name ++ verb ++ (sign ++ text), guard := e.guard }
  obtain ⟨ss, hss, hdone⟩ := statements_of_printGuard (l := l) rfl h
  refine ⟨[l], ss, ?_, hss, hdone⟩
  rw [effectLine, htext]
  rfl

/-- **An agent of a quantified clause is one statement**, unless the clause leaves the agent out. -/
theorem prints_quantifiedObserver (name verb : String) (e : Entry) (agent : Tree) :
    Prints (quantifiedObserver name verb e agent)
      ((quantifiedOver verb e agent).map (List.map (Observer.line name))) := by
  intro sheet done h
  rw [quantifiedObserver_eq] at h
  obtain ⟨out, hout, h⟩ := perform_ofExcept_bind_eq_ok.1 h
  cases out with
  | true =>
    obtain ⟨ls, ss, hls, hss, hdone⟩ := prints_pure sheet done h
    cases hls
    refine ⟨[], ss, ?_, hss, hdone⟩
    rw [quantifiedOver, hout]
    rfl
  | false =>
    cases agent with
    | list ts => cases h
    | word agent =>
      simp only [Bool.false_eq_true, if_false, Sheet.nameOf, pure_bind] at h
      rw [Sheet.perform_write_bind, Sheet.perform_guard_bind] at h
      obtain ⟨g, hg, h⟩ := perform_ofExcept_bind_eq_ok.1 h
      obtain ⟨printed, mid, hprinted, h⟩ := perform_bind_eq_ok.1 h
      rw [perform_writePrinted] at hprinted
      obtain ⟨hok, rfl⟩ := Prod.mk.inj hprinted
      obtain ⟨-, rfl⟩ := Prod.mk.inj h
      let l : Line := Observer.line name ⟨agent, verb, e.guard, true⟩
      refine ⟨[l], _, ?_, statements_singleton (l := l) hg hok, ?_⟩
      · rw [quantifiedOver, hout]
        rfl
      · simp only [terminated_singleton, List.foldl_cons, List.foldl_nil, Line.leaves, l, Observer.line, if_true,
          String.append_assoc]

theorem prints_observers (agents : Except Fault (List Tree)) (name verb : String) (es : List Entry) :
    Prints (observers agents name verb es) ((observersBy agents verb es).map (List.map (Observer.line name))) := by
  rw [observersBy, allOf_map]
  refine Prints.each (fun e => ?_) es
  rw [allOf_map]
  refine Prints.each (fun ag => ?_) e.body.items
  intro sheet done h
  unfold observer at h
  unfold namedBy
  by_cases hag : isMarked ag = true
  · rw [if_pos hag] at h ⊢
    obtain ⟨known, rfl, h⟩ := perform_ofExcept_bind_eq_ok.1 h
    have hlines : ((Except.ok known : Except Fault (List Tree)).bind (allOf (quantifiedOver verb e))).map
        (List.map (Observer.line name)) = _ := allOf_map (quantifiedOver verb e) (Observer.line name) known
    rw [hlines]
    exact Prints.each (prints_quantifiedObserver name verb e) known sheet done h
  · rw [if_neg hag] at h ⊢
    rw [Sheet.perform_write_bind] at h
    let l : Line := Observer.line name ⟨ag.shown, verb, e.guard, false⟩
    obtain ⟨ss, hss, hdone⟩ := statements_of_printGuard (l := l) rfl h
    exact ⟨[l], ss, rfl, hss, hdone⟩

theorem prints_parts (agents : Except Fault (List Tree)) (a : Action) :
    Prints (effects .levels a >>= fun _ => fullObservers agents a >>= fun _ => observersInPart agents a)
      (actionLines agents a) := by
  have heffects := (Prints.each (prints_effect a.name (effectVerb .levels a.kind) "") a.addEffects).bind
    (Prints.each (prints_effect a.name (effectVerb .levels a.kind) "-") a.deleteEffects)
  refine heffects.bind ?_
  unfold fullObservers observersInPart observersOf
  cases a.observers with
  | levels full inPart =>
    rw [bothOf_map]
    exact (prints_observers agents a.name _ full).bind (prints_observers agents a.name _ inPart)
  | groups members => exact prints_pure.bind prints_pure

/-! ## Counting statements -/

theorem length_of_statements : ∀ {ls : List Line} {guards : List Guard} {ss : List String},
    statements ls guards = .ok ss → ss.length = ls.length := by
  intro ls
  induction ls with
  | nil =>
    intro guards ss h
    cases h
    rfl
  | cons l ls ih =>
    intro guards ss h
    rw [statements] at h
    obtain ⟨first, -, h⟩ := except_bind_eq_ok.1 h
    obtain ⟨rest, hrest, h⟩ := except_bind_eq_ok.1 h
    cases h
    simp [ih hrest]

theorem length_of_effectLines {name verb sign : String} : ∀ {es : List Entry} {ls : List Line},
    allOf (effectLine name verb sign) es = .ok ls → ls.length = es.length := by
  intro es
  induction es with
  | nil =>
    intro ls h
    cases h
    rfl
  | cons e es ih =>
    intro ls h
    obtain ⟨first, hfirst, h⟩ := except_bind_eq_ok.1 h
    obtain ⟨rest, hrest, h⟩ := except_bind_eq_ok.1 h
    cases h
    have hone : first.length = 1 := by
      unfold effectLine at hfirst
      cases hbody : formula e.body with
      | error fault =>
        rw [hbody] at hfirst
        cases hfirst
      | ok text =>
        rw [hbody] at hfirst
        cases hfirst
        rfl
    simp [hone, ih hrest, Nat.add_comm]

/-- **An action has one statement for each effect and for each observing agent** besides that of its preconditions. -/
theorem length_of_actionStatements {agents : Except Fault (List Tree)} {a : Action} {ss : List String}
    (h : actionStatements agents a = .ok ss) : ∃ os, observersOf agents a = .ok os ∧
      ss.length = a.addEffects.length + a.deleteEffects.length + os.length := by
  obtain ⟨ls, hls, h⟩ := except_bind_eq_ok.1 h
  obtain ⟨effects, heffects, hls⟩ := except_bind_eq_ok.1 hls
  obtain ⟨adds, hadds, heffects⟩ := except_bind_eq_ok.1 heffects
  obtain ⟨deletes, hdeletes, heffects⟩ := except_bind_eq_ok.1 heffects
  cases heffects
  obtain ⟨watchers, hwatchers, hls⟩ := except_bind_eq_ok.1 hls
  cases hls
  cases hos : observersOf agents a with
  | error fault =>
    rw [hos] at hwatchers
    cases hwatchers
  | ok os =>
    rw [hos] at hwatchers
    cases hwatchers
    refine ⟨os, rfl, ?_⟩
    rw [length_of_statements h, List.length_append, List.length_append, List.length_map,
      length_of_effectLines hadds, length_of_effectLines hdeletes]

/-! ## Blocks -/

theorem writeListed_ok {p : String × Option Fault} {sheet done : Sheet}
    (h : (writeListed p).perform sheet = (.ok (), done)) : done = { sheet with text := sheet.text ++ p.1 } := by
  rcases p with ⟨text, _ | e⟩
  · cases h
    rfl
  · rw [writeListed, Sheet.perform_write_bind] at h
    cases h

/-- The preconditions of an action, with commas between them. -/
def preconditionList (a : Action) : String :=
  (listedInOrder "" (!a.negativePreconditions.isEmpty) a.positivePreconditions).1 ++
    (listedInOrder "-" false a.negativePreconditions).1

/-- What stands behind the name of an action: its preconditions and the end of the statement, or nothing. -/
def preconditionText (a : Action) : String :=
  if a.hasPreconditions then " if " ++ preconditionList a ++ ";\n" else ""

theorem preconditions_ok {a : Action} {sheet done : Sheet} (h : (preconditions a).perform sheet = (.ok (), done)) :
    done = { sheet with text := sheet.text ++ preconditionText a } := by
  unfold preconditions at h
  unfold preconditionText Action.hasPreconditions
  by_cases hnone : (a.positivePreconditions.isEmpty && a.negativePreconditions.isEmpty) = true
  · rw [if_pos hnone] at h
    cases h
    simp [hnone]
  · rw [if_neg hnone, Sheet.perform_write_bind] at h
    obtain ⟨_, mid, hpositive, h⟩ := perform_bind_eq_ok.1 h
    obtain ⟨_, mid', hnegative, h⟩ := perform_bind_eq_ok.1 h
    cases writeListed_ok hpositive
    cases writeListed_ok hnegative
    cases h
    rw [Bool.not_eq_true] at hnone
    simp only [hnone, Bool.not_false, if_true, preconditionList, String.append_assoc]

/-- What a block is to say first: that the action can be executed, and under which conditions. -/
def SaysExecutable (name first : String) : Prop :=
  first = "executable " ++ name ∨ ∃ conditions, first = "executable " ++ name ++ " if " ++ conditions

/-- The block of an action, with the statements of its effects and observers. -/
structure IsBlock (agents : Except Fault (List Tree)) (a : Action) (ss : List String) (block : String) : Prop where
  statements : actionStatements agents a = .ok ss
  layout : block = "executable " ++ a.name ++ preconditionText a ++ terminated ss

/-- **All statements of a block have an end exactly if the action has preconditions.** -/
theorem IsBlock.terminated_iff {agents : Except Fault (List Tree)} {a : Action} {ss : List String} {block : String}
    (h : IsBlock agents a ss block) :
    (∃ first, SaysExecutable a.name first ∧ block = terminated (first :: ss)) ↔ a.hasPreconditions = true := by
  rw [h.layout, preconditionText]
  constructor
  · rintro ⟨first, hfirst, heq⟩
    by_contra hnone
    -- the end that the first statement lacks would make the block longer than it is
    have hlength := congrArg String.length heq
    rw [if_neg hnone, terminated_cons, String.append_empty] at hlength
    have hlong : ("executable " ++ a.name).length ≤ first.length := by
      rcases hfirst with rfl | ⟨conditions, rfl⟩
      · exact Nat.le_refl _
      · simp only [String.length_append]
        omega
    have hend : ";\n".length = 2 := by decide
    simp only [String.length_append, hend] at hlength hlong
    omega
  · intro hsome
    refine ⟨"executable " ++ a.name ++ " if " ++ preconditionList a, .inr ⟨_, rfl⟩, ?_⟩
    rw [if_pos hsome, terminated_cons]
    simp only [String.append_assoc]

/-- A block between the lines that name its action and end it. -/
def framed (name block : String) : String := "%%%Action " ++ name ++ "\n\n" ++ block ++ "\n%%%\n\n"

/-- **A ground action is written as its block.** -/
theorem action_ok {agents : Except Fault (List Tree)} {groups : List Tree} {a : Action} {sheet done : Sheet}
    (hguards : sheet.guards = a.guards) (h : (action .levels agents groups a).perform sheet = (.ok (), done)) :
    ∃ ss block, IsBlock agents a ss block ∧ done.text = sheet.text ++ framed a.name block := by
  rw [action, Sheet.perform_write_bind, Sheet.perform_write_bind] at h
  obtain ⟨_, mid, hpre, h⟩ := perform_bind_eq_ok.1 h
  cases preconditions_ok hpre
  obtain ⟨_, mid₁, heffects, h⟩ := perform_bind_eq_ok.1 h
  obtain ⟨_, mid₂, hfull, h⟩ := perform_bind_eq_ok.1 h
  obtain ⟨_, mid₃, hinPart, h⟩ := perform_bind_eq_ok.1 h
  cases h
  obtain ⟨ls, ss, hls, hss, rfl⟩ := prints_parts agents a _ _
    (perform_bind_eq_ok.2 ⟨_, mid₁, heffects, perform_bind_eq_ok.2 ⟨_, mid₂, hfull, hinPart⟩⟩)
  refine ⟨ss, _, ⟨?_, rfl⟩, ?_⟩
  · rw [actionStatements, hls, ← hguards]
    exact hss
  · simp only [framed, String.append_assoc]

/-! ## Documents -/

theorem print_ok {how : Action → Work Sheet Unit} {place : Option Nat} {a : Action} {draft done : Draft}
    (h : (Draft.print how place a).perform draft = (.ok (), done)) :
    ∃ sheet, (how a).perform { guards := a.guards } = (.ok (), sheet) ∧ done.text = draft.text ++ sheet.text := by
  rw [Draft.print, Work.perform_bind_ok (Work.perform_modify _ draft), Work.perform_ofExcept] at h
  obtain ⟨hok, rfl⟩ := Prod.mk.inj h
  exact ⟨_, Prod.ext hok rfl, rfl⟩

/-- What stands before the blocks of the actions. -/
def blockHead : String :=
  "%%%%%%%%%%%%%%%%%    ACTIONS' SPECIFICATIONS    %%%%%%%%%%%%%%%%\n" ++
  "%Actions' specifications generated from EPDDL by grounding each action's definition\n\n"

/-- A text is the block of an action in its frame, with one statement for each effect and for each observing agent, and
the first of its statements has an end exactly if the action has preconditions. -/
def Describes (agents : Except Fault (List Tree)) (a : Action) (text : String) : Prop :=
  ∃ ss os block, text = framed a.name block ∧ IsBlock agents a ss block ∧
    observersOf agents a = .ok os ∧ ss.length = a.addEffects.length + a.deleteEffects.length + os.length ∧
    ((∃ first, SaysExecutable a.name first ∧ block = terminated (first :: ss)) ↔ a.hasPreconditions = true)

theorem each_print_ok {agents : Except Fault (List Tree)} {groups : List Tree} : ∀ {Gs : List GroundAction}
    {draft done : Draft},
    (Work.each (fun g => Draft.print (action .levels agents groups) g.place g.action) Gs).perform draft =
      (.ok (), done) →
    ∃ texts, List.Forall₂ (fun G => Describes agents G.action) Gs texts ∧ done.text = draft.text ++ String.join texts
  | [], draft, done, h => by
    cases h
    exact ⟨[], .nil, by simp⟩
  | G :: Gs, draft, done, h => by
    obtain ⟨_, mid, hfirst, hrest⟩ := perform_bind_eq_ok.1 h
    obtain ⟨sheet, hsheet, hmid⟩ := print_ok hfirst
    obtain ⟨ss, block, hblock, htext⟩ := action_ok rfl hsheet
    obtain ⟨texts, htexts, hdone⟩ := each_print_ok hrest
    obtain ⟨os, hos, hlength⟩ := length_of_actionStatements hblock.statements
    refine ⟨framed G.action.name block :: texts,
      .cons ⟨ss, os, block, rfl, hblock, hos, hlength, hblock.terminated_iff⟩ htexts, ?_⟩
    rw [hdone, hmid, htext, String.join_cons, String.empty_append, String.append_assoc]

theorem actionSection_ok {d : Domain} {Gs : List GroundAction} {start finish : Draft}
    (h : (actionSection .levels d Gs).perform start = (.ok (), finish)) :
    ∃ texts, List.Forall₂ (fun G => Describes d.agents G.action) Gs texts ∧
      finish.text = start.text ++ blockHead ++ String.join texts ++ (rule ++ "\n\n") := by
  rw [actionSection, perform_write_bind] at h
  obtain ⟨_, mid, heach, h⟩ := perform_bind_eq_ok.1 h
  obtain ⟨texts, htexts, hmid⟩ := each_print_ok heach
  have hblocks : mid.text = start.text ++ blockHead ++ String.join texts := hmid
  have hfinish : finish.text = mid.text ++ (rule ++ "\n\n") := congrArg (·.2.text) h.symm
  exact ⟨texts, htexts, by rw [hfinish, hblocks]⟩

theorem document_actionSection {t : Task} {d : Domain} {p : Problem} {draft done : Draft}
    (h : (document t d p).perform draft = (.ok (), done)) :
    ∃ start finish, (actionSection t.dialect d ((groundTask t d).perform {}).2.actions.reverse).perform start =
      (.ok (), finish) ∧ done.Begins finish.text := by
  rw [document, perform_write_bind] at h
  obtain ⟨_, -, h⟩ := perform_ofExcept_bind_eq_ok.1 h
  rw [perform_write_bind, perform_write_bind] at h
  obtain ⟨_, agents, -, h⟩ := perform_bind_eq_ok.1 h
  obtain ⟨_, actions, hactions, h⟩ := perform_bind_eq_ok.1 h
  obtain ⟨found, truth, htruth, h⟩ := perform_bind_eq_ok.1 h
  rw [perform_write_bind] at h
  obtain ⟨-, trues, htrues⟩ := truthSection_ok htruth
  refine ⟨agents, actions, hactions, (keeps_goalSection Draft.open_begins p).of_ok h ?_⟩
  rw [String.append_assoc, String.append_assoc] at htrues
  exact ((Draft.begins_self actions).append htrues).append rfl

end MAp

namespace Session

/-- **The statement that says when an action can be executed has an end only if it has preconditions.**  When a task
with two levels of observers is written, the section of actions holds the block of every ground action in order.  A
block is a sequence of statements that all have an end, of which the first says when the action can be executed and the
others are those of its effects and observers, exactly if the action has preconditions. -/
theorem writeMAp_terminated_iff {folder : String} {s s' : Session} (hlevels : s.task.dialect = .levels)
    (hrun : (writeMAp folder).perform s = (.ok (), s')) :
    ∃ d p before texts after, s.task.domain = some d ∧ s.task.problem = some p ∧
      s'.files.get? (mApPath folder s.task.dialect d p) =
        some (before ++ MAp.blockHead ++ String.join texts ++ MAp.rule ++ after) ∧
      List.Forall₂ (fun G => MAp.Describes d.agents G.action)
        ((MAp.groundTask s.task d).perform {}).2.actions.reverse texts := by
  obtain ⟨d, p, actions, draft, hd, hp, hdocument, hfile⟩ := writeMAp_ok hrun
  obtain ⟨start, finish, hsection, rest, hrest⟩ := MAp.document_actionSection hdocument
  rw [hlevels] at hsection
  obtain ⟨texts, htexts, hfinish⟩ := MAp.actionSection_ok hsection
  refine ⟨d, p, start.text, texts, "\n\n" ++ rest, hd, hp, ?_, htexts⟩
  rw [hfile, hrest, hfinish, ← String.append_assoc, String.append_assoc]

/-- A door that is opened and shut.  It has to be ajar to be shut, and nothing is asked for to open it. -/
def unguardedDoor : Session :=
  ((readProblem "p" (some "(define (problem p) (:agents a) (:init (ajar)) (:goal (ajar)))")).perform
    ((readDomain "d" (some ("(define (domain d) (:predicates (ajar)) (:action open :effect (ajar) :observers (a))" ++
      "(:action shut :precondition (ajar) :effect (not (ajar))))"))).perform
      { task := { dialect := .levels } }).2).2

theorem writeMAp_terminated_iff_open : unguardedDoor.task.dialect = .levels ∧
    ∃ s', (writeMAp "out").perform unguardedDoor = (.ok (), s') ∧
    ∃ d p before texts after, unguardedDoor.task.domain = some d ∧ unguardedDoor.task.problem = some p ∧
      s'.files.get? (mApPath "out" unguardedDoor.task.dialect d p) =
        some (before ++ MAp.blockHead ++ String.join texts ++ MAp.rule ++ after) ∧
      List.Forall₂ (fun G => MAp.Describes d.agents G.action)
        ((MAp.groundTask unguardedDoor.task d).perform {}).2.actions.reverse texts := by
  obtain ⟨hlevels, hok⟩ : unguardedDoor.task.dialect = .levels ∧
      ((writeMAp "out").perform unguardedDoor).1.isOk = true := by decide +kernel
  exact ⟨hlevels, _, Work.ok_of_isOk hok, writeMAp_terminated_iff hlevels (Work.ok_of_isOk hok)⟩

end Session
end Epistemic
