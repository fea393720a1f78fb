import Epistemic.Proofs.PrintingOrder
import Epistemic.Proofs.Spelling
/-!
# Initial beliefs at every depth

What holds initially is written once, at depth one, unless an operator speaks of all agents.  If that operator comes
first and is the only one, the formula is written at every depth, with as many quantifiers around it as the depth says
(`Session.writePdkbProblem_initial`).
-/
namespace Epistemic
namespace Pdkb

open Source (Balanced depthFrom)

/-! ## Formulas of the initial state -/

/-- Operators before the words of an atom, with no parenthesis in a name. -/
structure InitialBelief where
  modalities : List Modality
  atom : List String
  worded : atom ≠ []
  clearAgents : ∀ m ∈ modalities, ∀ a ∈ m.agents, Clear a
  clearAtom : ∀ w ∈ atom, Clear w

/-- Whether an operator is one of several agents with so many commas as there are agents. -/
def Modality.isWide (agents : Nat) (m : Modality) : Bool := m.common && m.name.toList.count ',' == agents

/-- The operators of so many quantified agents, from the last to the first. -/
def quantified (depth : Nat) : List Modality :=
  (List.range depth).reverse.map fun i => ⟨false, [agentVariable (i + 1)]⟩

/-- A body inside quantifiers over agents, of which the outermost has a number. -/
def nestedFrom : (first count : Nat) → (body : String) → String
  | _, 0, body => "\t\t" ++ body
  | i, count + 1, body =>
    "\t\t(forall " ++ agentVariable i ++ " - agent\n" ++ String.ofList (List.replicate i '\t') ++
      nestedFrom (i + 1) count body ++ ")"

namespace InitialBelief

def tree (F : InitialBelief) : Tree := .list (F.modalities.map (fun m => .word m.name) ++ F.atom.map .word)

/-- The text of the atom behind operators. -/
def textBehind (F : InitialBelief) (ms : List Modality) : String :=
  beliefText (ms.map fun m => m.agents.map respelled) (F.atom.map respelled)

def text (F : InitialBelief) : String := F.textBehind F.modalities

/-- What is written of a formula at some depth, if anything is. -/
def entry (agents depth : Nat) (F : InitialBelief) : Option String :=
  match F.modalities.filter (Modality.isWide agents) with
  | [] => if depth = 1 then some ("\t\t(" ++ F.text ++ ")") else none
  | [_] =>
    some (nestedFrom 1 depth (F.textBehind (quantified depth ++ F.modalities.filter (!Modality.isWide agents ·))))
  | _ => some ("\t\t(" ++ F.text ++ ") ")

end InitialBelief

/-! ## Operators -/

theorem Modality.hasCommonBelief_name {m : Modality} (h : m.Named) : (Tree.word m.name).hasCommonBelief = m.common := by
  have hnone : Text.occurs ['C', '('] ([','].intercalate (m.agents.map String.toList) ++ [',']) = false :=
    Bool.eq_false_iff.2 fun ho => not_mem_behind h (Text.mem_of_occurs (by decide) ho)
  show Text.occurs ['C', '('] m.name.toList = m.common
  rw [toList_name]
  cases m.common <;> simp [Text.occurs, List.isPrefixOf, hnone]

theorem commas_word (w : String) : commas (.word w) = w.toList.count ',' := by
  have hcomma : ∀ c : Char, (Tree.word (String.ofList [c]) == .word ",") = (c == ',') := by
    intro c
    refine Bool.eq_iff_iff.2 ?_
    rw [beq_iff_eq, beq_iff_eq, Tree.word.injEq, ← String.toList_inj, String.toList_ofList]
    simp
  simp only [commas, Tree.items, List.count, List.countP_map, Function.comp_def, hcomma]

theorem Modality.isWide_congr {agents : Nat} {m m' : Modality} (h : m.name = m'.name) :
    m.isWide agents = m'.isWide agents := by
  have hmark := congrArg (fun w : String => w.toList.head?) h
  simp only [toList_name, List.head?_cons, Option.some.injEq] at hmark
  have hcommon : m.common = m'.common := by
    cases hm : m.common <;> cases hm' : m'.common <;> simp [hm, hm'] at hmark ⊢
  rw [isWide, isWide, h, hcommon]

theorem quantifiedOperators_names (depth : Nat) :
    quantifiedOperators depth = (quantified depth).map fun m => .word m.name := by
  rw [quantifiedOperators, quantified, List.map_map]
  refine List.map_congr_left fun i _ => ?_
  simp [Modality.name]

theorem isDigit_of_mem_toString {n : Nat} {c : Char} (hc : c ∈ (toString n).toList) : c.isDigit = true := by
  rw [Nat.toString_eq_ofList_toDigits, String.toList_ofList] at hc
  exact Nat.isDigit_of_mem_toDigits (by decide) (by decide) hc

theorem not_mem_agentVariable {c : Char} (hname : c ∉ "?ag".toList) (hdigit : c.isDigit = false) (i : Nat) :
    c ∉ (agentVariable i).toList := by
  intro hc
  rw [agentVariable, String.toList_append, List.mem_append] at hc
  rcases hc with hc | hc
  · exact hname hc
  · exact absurd (isDigit_of_mem_toString hc) (Bool.eq_false_iff.1 hdigit)

theorem clear_agentVariable (i : Nat) : Clear (agentVariable i) :=
  clear_iff.2 ⟨not_mem_agentVariable (by decide) (by decide) i, not_mem_agentVariable (by decide) (by decide) i⟩

theorem clearAgents_quantified (depth : Nat) : ∀ m ∈ quantified depth, ∀ a ∈ m.agents, Clear a := by
  intro m hm a ha
  obtain ⟨i, -, rfl⟩ := List.mem_map.1 hm
  rw [List.mem_singleton.1 ha]
  exact clear_agentVariable (i + 1)

theorem named_of_clear {ms : List Modality} (h : ∀ m ∈ ms, ∀ a ∈ m.agents, Clear a) : ∀ m ∈ ms, m.Named :=
  fun m hm a ha => (clear_iff.1 (h m hm a ha)).1

theorem named_quantified (depth : Nat) : ∀ m ∈ quantified depth, m.Named :=
  named_of_clear (clearAgents_quantified depth)

/-! ## Quantifiers around a body -/

theorem nestedFrom_zero (first : Nat) (body : String) : nestedFrom first 0 body = "\t\t" ++ body := rfl

theorem nestedFrom_succ (first count : Nat) (body : String) : nestedFrom first (count + 1) body =
    "\t\t(forall " ++ agentVariable first ++ " - agent\n" ++ String.ofList (List.replicate first '\t') ++
      nestedFrom (first + 1) count body ++ ")" := rfl

theorem nestedFrom_eq (count : Nat) : ∀ (first : Nat) (body : String), nestedFrom first count body =
    String.join ((List.range' first count).map fun i =>
      "\t\t(forall " ++ agentVariable i ++ " - agent\n" ++ String.ofList (List.replicate i '\t')) ++
      "\t\t" ++ body ++ closings count := by
  induction count with
  | zero => simp [nestedFrom_zero, closings]
  | succ count ih =>
    intro first body
    rw [nestedFrom_succ, ih, List.range'_succ, List.map_cons, String.join_cons, closings_add count 1]
    simp only [String.append_assoc]
    rfl

theorem quantifiers_around (depth : Nat) (body : String) :
    quantifiers depth ++ "\t\t" ++ body ++ closings depth = nestedFrom 1 depth body := by
  have hlines : (List.range depth).map (fun i =>
      "\t\t(forall " ++ agentVariable (i + 1) ++ " - agent\n" ++ String.ofList (List.replicate (i + 1) '\t')) =
      (List.range' 1 depth).map fun i =>
        "\t\t(forall " ++ agentVariable i ++ " - agent\n" ++ String.ofList (List.replicate i '\t') := by
    rw [List.range'_eq_map_range, List.map_map]
    refine List.map_congr_left fun i _ => ?_
    simp only [Function.comp_apply, Nat.add_comm 1 i]
  rw [nestedFrom_eq, quantifiers, hlines]

/-- What quantifiers open they close. -/
theorem level_nestedFrom {body : String} (h : Level body) (count : Nat) :
    ∀ first, Level (nestedFrom first count body) := by
  induction count with
  | zero => exact fun _ => (Clear.level (by decide)).append h
  | succ count ih =>
    intro first d
    have hline : Clear (agentVariable first ++ " - agent\n" ++ String.ofList (List.replicate first '\t')) := by
      refine ((clear_agentVariable first).append (by decide)).append fun c hc => ?_
      rw [String.toList_ofList] at hc
      rw [(List.mem_replicate.1 hc).2]
      decide
    have hsplit : nestedFrom first (count + 1) body = "\t\t(forall " ++ (agentVariable first ++ " - agent\n" ++
        String.ofList (List.replicate first '\t') ++ (nestedFrom (first + 1) count body ++ ")")) := by
      rw [nestedFrom_succ]
      simp only [String.append_assoc]
    rw [hsplit, depthFrom_then (rfl : depthFrom d "\t\t(forall ".toList = some (d + 1)), depthFrom_level hline.level,
      depthFrom_level (ih _)]
    rfl

/-! ## One formula at one depth -/

section
variable {F : InitialBelief} {agents : List Tree}

theorem InitialBelief.named (F : InitialBelief) : ∀ m ∈ F.modalities, m.Named := named_of_clear F.clearAgents

theorem InitialBelief.plain (F : InitialBelief) : ∀ w ∈ F.atom, '(' ∉ w.toList :=
  fun w hw => (clear_iff.1 (F.clearAtom w hw)).1

theorem InitialBelief.formula_behind {ms : List Modality} (h : ∀ m ∈ ms, m.Named) :
    formula (.list (ms.map (fun m => .word m.name) ++ F.atom.map .word)) = .ok (F.textBehind ms) :=
  formula_modalities h F.worded F.plain

theorem InitialBelief.filter_common (F : InitialBelief) :
    F.tree.items.filter Tree.hasCommonBelief = (F.modalities.filter Modality.common).map fun m => .word m.name := by
  have hatom : (F.atom.map Tree.word).filter Tree.hasCommonBelief = [] := by
    refine List.filter_eq_nil_iff.2 fun t ht => ?_
    obtain ⟨w, hw, rfl⟩ := List.mem_map.1 ht
    exact fun hcommon => F.plain w hw (Text.mem_of_occurs (by decide) hcommon)
  rw [tree, Tree.items, List.filter_append, hatom, List.append_nil, List.filter_map]
  exact congrArg _ (List.filter_congr fun m hm => Modality.hasCommonBelief_name (F.named m hm))

theorem filter_wide (agents : Nat) (ms : List Modality) :
    ((ms.filter Modality.common).map fun m => Tree.word m.name).filter (fun t => commas t == agents) =
      (ms.filter (Modality.isWide agents)).map fun m => .word m.name := by
  rw [List.filter_map, List.filter_filter]
  refine congrArg _ (List.filter_congr fun m _ => ?_)
  rw [Function.comp_apply, commas_word, Modality.isWide, Bool.and_comm]

/-- The only operator that speaks of all agents is taken out where it stands. -/
theorem InitialBelief.erase_wide {o : Modality} {n : Nat} (h : F.modalities.filter (Modality.isWide n) = [o]) :
    F.tree.items.erase (.word o.name) =
      (F.modalities.filter (!Modality.isWide n ·)).map (fun m => .word m.name) ++ F.atom.map .word := by
  obtain ⟨before, after, hsplit, hbefore, hwide, hafter⟩ := List.filter_eq_cons_iff.1 h
  have hnot : ∀ {ms : List Modality}, (∀ m ∈ ms, ¬ m.isWide n = true) → ms.filter (!Modality.isWide n ·) = ms := by
    intro ms hms
    exact List.filter_eq_self.2 fun m hm => by simpa using hms m hm
  have hafter := hnot (List.filter_eq_nil_iff.1 hafter)
  have hfirst : Tree.word o.name ∉ before.map fun m => Tree.word m.name := by
    intro hm
    obtain ⟨m, hm, heq⟩ := List.mem_map.1 hm
    exact hbefore m hm (by rw [Modality.isWide_congr (Tree.word.inj heq), hwide])
  rw [tree, Tree.items, hsplit, List.filter_append, hnot hbefore, List.filter_cons_of_neg (by simpa using hwide),
    hafter, List.map_append, List.map_cons, List.append_assoc, List.erase_append_right _ hfirst, List.cons_append,
    List.erase_cons_head, List.map_append, List.append_assoc]

/-- **What is written of a formula at some depth is its entry**, or nothing. -/
theorem initial_tree (F : InitialBelief) (agents : List Tree) (depth : Nat) :
    initial (.ok agents) depth F.tree = .ok ((F.entry agents.length depth).getD "") := by
  have hplain : plainInitial depth F.tree =
      .ok ((if depth = 1 then some ("\t\t(" ++ F.text ++ ")") else none).getD "") := by
    rw [plainInitial, show formula F.tree = .ok F.text from InitialBelief.formula_behind F.named]
    by_cases hdepth : depth = 1 <;> simp [hdepth, Except.map]
  have hwide := filter_wide agents.length F.modalities
  have hcommon : ∀ {o os}, F.modalities.filter (Modality.isWide agents.length) = o :: os →
      ¬ ((F.modalities.filter Modality.common).map fun m => Tree.word m.name).isEmpty = true := by
    intro o os hmany hempty
    rw [List.isEmpty_iff.1 hempty, hmany] at hwide
    cases hwide
  unfold initial InitialBelief.entry
  rw [F.filter_common]
  simp only [hwide]
  rcases hmany : F.modalities.filter (Modality.isWide agents.length) with _ | ⟨o, _ | ⟨o', os⟩⟩
  · simpa using hplain
  · have hquantified : formula (.list (quantifiedOperators depth ++ F.tree.items.erase (.word o.name))) =
        .ok (F.textBehind (quantified depth ++ F.modalities.filter (!Modality.isWide agents.length ·))) := by
      rw [InitialBelief.erase_wide hmany, quantifiedOperators_names, ← List.append_assoc, ← List.map_append]
      refine InitialBelief.formula_behind fun m hm => ?_
      rcases List.mem_append.1 hm with hm | hm
      · exact named_quantified depth m hm
      · exact F.named m (List.mem_filter.1 hm).1
    rw [if_neg (hcommon hmany)]
    simp only [List.map_cons, List.map_nil]
    rw [quantifiedInitial, hquantified]
    simp [Except.map, quantifiers_around]
  · rw [if_neg (hcommon hmany)]
    simp only [List.map_cons]
    rw [show formula F.tree = .ok F.text from InitialBelief.formula_behind F.named]
    rfl

/-! ## The section of the initial state -/

theorem each_map {σ α β : Type} (f : β → Work σ Unit) (g : α → β) (as : List α) :
    Work.each f (as.map g) = Work.each (fun a => f (g a)) as := by
  induction as with
  | nil => rfl
  | cons a as ih => rw [List.map_cons, Work.each, Work.each, ih]

/-- An entry in lines of its own. -/
def InitialBelief.lines (agents depth : Nat) (F : InitialBelief) : String :=
  (F.entry agents depth).elim "" fun text => "\n\n" ++ text

/-- The entries of all formulas, depth by depth. -/
def initialBlock (agents depth : Nat) (Fs : List InitialBelief) : String :=
  "\n\t(:init-type complete)" ++ ("\n\t(:init" ++
    (String.join ((List.range depth).map fun i =>
      "\n\n\t\t;Depth " ++ toString (i + 1) ++ String.join (Fs.map (InitialBelief.lines agents (i + 1)))) ++ "\n\t)\n"))

theorem InitialBelief.entry_ne_empty {n depth : Nat} : F.entry n depth ≠ some "" := by
  unfold InitialBelief.entry
  split
  · split
    · simp
    · exact nofun
  · intro h
    rw [Option.some.injEq, ← quantifiers_around] at h
    have := congrArg String.length h
    simp at this
  · simp

theorem writes_lines (agents : List Tree) (depth : Nat) (F : InitialBelief) :
    Writes (do
      let text ← Work.ofExcept (initial (.ok agents) depth F.tree)
      if text != "" then
        Draft.write ("\n\n" ++ text)) (.ok (F.lines agents.length depth)) := by
  intro draft
  rw [initial_tree, Work.perform_bind_ok (Work.perform_ofExcept _ _), InitialBelief.lines]
  cases hentry : F.entry agents.length depth with
  | none => simp
  | some text =>
    have hne : text ≠ "" := fun hempty => InitialBelief.entry_ne_empty (hempty ▸ hentry)
    simp only [Option.getD_some, bne_iff_ne, ne_eq, hne, not_false_eq_true, if_true]
    rfl

theorem writes_initialAt (agents : List Tree) (depth : Nat) (Fs : List InitialBelief) :
    Writes (initialAt (.ok agents) (Fs.map InitialBelief.tree) depth)
      (.ok ("\n\n\t\t;Depth " ++ toString depth ++
        String.join (Fs.map (InitialBelief.lines agents.length depth)))) := by
  unfold initialAt
  rw [each_map]
  exact (writes_write _).bind (Writes.each_ok fun F _ => writes_lines agents depth F)

/-- **The section of the initial state has the entries of all formulas at every depth, and nothing else.** -/
theorem writes_initialSection (agents : List Tree) (Fs : List InitialBelief) {depth : Depth} {count : Nat}
    (hdepth : depthNumber depth = .ok count) :
    Writes (initialSection (.ok agents) depth (Fs.map InitialBelief.tree))
      (.ok (initialBlock agents.length count Fs)) := by
  unfold initialSection
  rw [hdepth]
  exact (writes_write _).bind ((writes_write _).bind
    ((Writes.each_ok fun i _ => writes_initialAt agents (i + 1) Fs).bind (writes_write _)))

/-! ## Entries -/

theorem respelled_agentVariable (i : Nat) : respelled (agentVariable i) = agentVariable i :=
  respelled_of_not_mem (not_mem_agentVariable (by decide) (by decide) i)

theorem InitialBelief.textBehind_eq {ms : List Modality} (hne : ms ≠ []) :
    F.textBehind ms =
      String.join (ms.map Modality.text) ++ ("(" ++ String.intercalate " " (F.atom.map respelled) ++ ")") := by
  have hempty : ms.isEmpty = false := Bool.eq_false_iff.2 (mt List.isEmpty_iff.1 hne)
  rw [textBehind, beliefText, List.isEmpty_map, hempty, List.map_map]
  rfl

/-- The operators of quantified agents, each in brackets. -/
def quantifiedText (depth : Nat) : String :=
  String.join ((List.range depth).reverse.map fun i => "[" ++ agentVariable (i + 1) ++ "]")

theorem text_quantified (depth : Nat) : (quantified depth).map Modality.text =
    (List.range depth).reverse.map fun i => "[" ++ agentVariable (i + 1) ++ "]" := by
  rw [quantified, List.map_map]
  refine List.map_congr_left fun i _ => ?_
  simp [Modality.text, agentsText, respelled_agentVariable]

theorem join_quantified (depth : Nat) : String.join ((quantified depth).map Modality.text) = quantifiedText depth :=
  congrArg String.join (text_quantified depth)

theorem quantified_ne_nil {depth : Nat} (h : 1 ≤ depth) : quantified depth ≠ [] := by
  simp [quantified]
  omega

theorem InitialBelief.entry_plain {n : Nat} (h : ∀ m ∈ F.modalities, m.isWide n = false) (depth : Nat) :
    F.entry n depth = if depth = 1 then some ("\t\t(" ++ F.text ++ ")") else none := by
  have hnone : F.modalities.filter (Modality.isWide n) = [] :=
    List.filter_eq_nil_iff.2 fun m hm => by simp [h m hm]
  rw [entry, hnone]

theorem InitialBelief.entry_first {n : Nat} {m : Modality} {ms : List Modality} (hsplit : F.modalities = m :: ms)
    (hm : m.isWide n = true) (hms : ∀ m ∈ ms, m.isWide n = false) (depth : Nat) :
    F.entry n depth = some (nestedFrom 1 depth (F.textBehind (quantified depth ++ ms))) := by
  have hnone : ms.filter (Modality.isWide n) = [] := List.filter_eq_nil_iff.2 fun m hm => by simp [hms m hm]
  have hall : ms.filter (!Modality.isWide n ·) = ms := List.filter_eq_self.2 fun m hm => by simp [hms m hm]
  rw [entry, hsplit, List.filter_cons_of_pos hm, hnone, List.filter_cons_of_neg (by simp [hm]), hall]

theorem clear_respelled {w : String} (h : Clear w) : Clear (respelled w) := by
  intro c hc
  rw [toList_respelled] at hc
  obtain ⟨x, hx, rfl⟩ := List.mem_map.1 hc
  exact isParenthesis_signChar (h x hx)

theorem InitialBelief.level_textBehind {ms : List Modality} (h : ∀ m ∈ ms, ∀ a ∈ m.agents, Clear a) :
    Level (F.textBehind ms) := by
  have hclear : ∀ {sep : String} {ws : List String}, Clear sep → (∀ w ∈ ws, Clear w) →
      Clear (String.intercalate sep (ws.map respelled)) := by
    intro sep ws hsep hws
    refine avoids_intercalate hsep fun w hw => ?_
    obtain ⟨u, hu, rfl⟩ := List.mem_map.1 hw
    exact clear_respelled (hws u hu)
  have hatom : Clear (String.intercalate " " (F.atom.map respelled)) := hclear (by decide) F.clearAtom
  by_cases hne : ms = []
  · subst hne
    simpa [textBehind, beliefText] using hatom.level
  · have hoperators : Clear (String.join (ms.map Modality.text)) := by
      clear hne
      induction ms with
      | nil => exact fun c hc => by simp at hc
      | cons m ms ih =>
        obtain ⟨hm, hms⟩ := List.forall_mem_cons.1 h
        rw [List.map_cons, String.join_cons]
        refine Clear.append ?_ (ih hms)
        exact ((by decide : Clear "[").append (hclear (by decide) hm)).append (by decide)
    rw [textBehind_eq hne]
    refine hoperators.level.append fun d => ?_
    rw [String.append_assoc, depthFrom_then (rfl : depthFrom d "(".toList = some (d + 1)), depthFrom_level hatom.level]
    rfl

/-- **What an entry opens it closes.** -/
theorem InitialBelief.balanced_entry {n depth : Nat} {text : String} (h : F.entry n depth = some text) :
    Balanced text.toList := by
  have hplain : ∀ last, Clear last → Level ("\t\t(" ++ F.text ++ ")" ++ last) := by
    intro last hlast d
    rw [String.append_assoc, String.append_assoc, depthFrom_then (rfl : depthFrom d "\t\t(".toList = some (d + 1)),
      depthFrom_level (show Level F.text from level_textBehind F.clearAgents),
      depthFrom_then (rfl : depthFrom (d + 1) ")".toList = some d)]
    exact hlast.level d
  suffices hlevel : Level text from (Source.balanced_iff _).2 (hlevel 0)
  unfold entry at h
  split at h
  · split at h
    · rw [← Option.some.inj h]
      simpa using hplain "" (by decide)
    · cases h
  · rw [← Option.some.inj h]
    refine level_nestedFrom (level_textBehind fun m hm => ?_) depth 1
    rcases List.mem_append.1 hm with hm | hm
    · exact clearAgents_quantified depth m hm
    · exact F.clearAgents m (List.mem_filter.1 hm).1
  · rw [← Option.some.inj h]
    rw [show ") " = ")" ++ " " from rfl, ← String.append_assoc]
    exact hplain " " (by decide)

end

/-! ## The document -/

/-- What stands before the initial state in the document of a problem. -/
def problemOpening (name domainName : String) (depth : Depth) (objects : Hierarchy) : String :=
  header ++ ("\x7binclude:" ++ domainName ++ ".pdkbpddl\x7d\n\n" ++
    "(define (problem " ++ name ++ ")\n" ++
    "\n\t(:domain " ++ domainName ++ ")\n") ++
  ("\n\t(:depth " ++ depthText depth ++ ")\n" ++
    objectDeclaration objects ++
    "\n\t(:projection )\n" ++
    "\n\t(:task valid_generation)\n")

theorem perform_problemDocument {t : Task} {d : Domain} (hd : t.domain = some d) {domainName : String}
    (hname : d.name = .word domainName) {agents : List Tree} (hagents : d.agents = .ok agents) {depth : Nat}
    (hdepth : depthNumber (t.depth.getD .standard) = .ok depth) {p : Problem} {Fs : List InitialBelief}
    (hstate : p.state = Fs.map InitialBelief.tree) (name : String) (draft : Draft) :
    (problemDocument name p t).perform draft = (goalSection p).perform { draft with
      text := draft.text ++ problemOpening name domainName (t.depth.getD .standard) d.objects ++
        initialBlock agents.length depth Fs } := by
  have hneed : t.needDomain = .ok d := by rw [Task.needDomain, hd]
  have hdomain : nameIn d.name = Work.ofExcept (.ok domainName) := by rw [nameIn, hname]; rfl
  rw [problemDocument, perform_write_bind, hneed, Work.perform_bind_ok (Work.perform_ofExcept _ _), hdomain,
    Work.perform_bind_ok (Work.perform_ofExcept _ _), perform_write_bind, perform_write_bind, hagents, hstate,
    Work.perform_bind_ok (writes_initialSection agents Fs hdepth _)]
  simp only [problemOpening, String.append_assoc]

end Pdkb

namespace Session

open Pdkb (InitialBelief Modality)

/-- **What holds initially is written at every depth.**  The document has, between its opening and its goals, the
entries of all formulas of the initial state at every depth up to that of the problem, and the task stays as it is.  A
formula without an operator that speaks of all agents has one entry, at depth one.  One that begins with such an
operator and has no other has an entry at every depth, with so many quantifiers around it and the quantified agents in
place of the operator.  All entries are balanced. -/
theorem writePdkbProblem_initial {s : Session} {d : Domain} {p : Problem} (hd : s.task.domain = some d)
    (hp : s.task.problem = some p) {domainName problemName : String} (hdomain : d.name = .word domainName)
    (hproblem : p.name = .word problemName) {agents : List Tree} (hagents : d.agents = .ok agents) {depth : Nat}
    (hdepth : Pdkb.depthNumber (s.task.depth.getD .standard) = .ok depth) {Fs : List InitialBelief}
    (hstate : p.state = Fs.map InitialBelief.tree) (folder : String) :
    (∃ goals, ((writePdkbProblem folder).perform s).2 = { s with
      files := s.files.insert (pdkbPath folder problemName)
        (Pdkb.problemOpening problemName domainName (s.task.depth.getD .standard) d.objects ++
          Pdkb.initialBlock agents.length depth Fs ++ goals) }) ∧
    (∀ F : InitialBelief, (∀ m ∈ F.modalities, m.isWide agents.length = false) →
      F.entry agents.length 1 = some ("\t\t(" ++ F.text ++ ")") ∧ ∀ k ≠ 1, F.entry agents.length k = none) ∧
    (∀ (F : InitialBelief) (m : Modality) (ms : List Modality), F.modalities = m :: ms →
      m.isWide agents.length = true → (∀ m' ∈ ms, m'.isWide agents.length = false) →
      ∃ rest, F.text = m.text ++ rest ∧
        ∀ k ≥ 1, F.entry agents.length k = some (Pdkb.nestedFrom 1 k (Pdkb.quantifiedText k ++ rest))) ∧
    ∀ (F : InitialBelief) (k : Nat) (text : String), F.entry agents.length k = some text →
      Source.Balanced text.toList := by
  refine ⟨?_, fun F hnone => ⟨F.entry_plain hnone 1, fun k hk => (F.entry_plain hnone k).trans (if_neg hk)⟩, ?_,
    fun F k text => F.balanced_entry⟩
  · -- the goals are only added behind what was written before
    let I : Draft → Prop := fun draft => draft.report = "" ∧ draft.actions = d.actions ∧ draft.Begins
      (Pdkb.problemOpening problemName domainName (s.task.depth.getD .standard) d.objects ++
        Pdkb.initialBlock agents.length depth Fs)
    have hopen : Draft.Open I := fun draft t h => ⟨h.1, h.2.1, Draft.open_begins draft t h.2.2⟩
    have hgoals := Pdkb.keeps_goalSection hopen p
      ⟨"" ++ Pdkb.problemOpening problemName domainName (s.task.depth.getD .standard) d.objects ++
        Pdkb.initialBlock agents.length depth Fs, "", d.actions⟩ ⟨rfl, rfl, "", by simp⟩
    obtain ⟨hreport, hactions, goals, htext⟩ := hgoals
    refine ⟨goals, ?_⟩
    rw [perform_writePdkbProblem folder hp hproblem, perform_writeFile hd,
      Pdkb.perform_problemDocument hd hdomain hagents hdepth hstate, hreport, hactions, htext, String.append_empty]
    simp only [← hd]
  · intro F m ms hsplit hm hms
    refine ⟨String.join (ms.map Modality.text) ++ ("(" ++ String.intercalate " " (F.atom.map Pdkb.respelled) ++ ")"),
      ?_, fun k hk => ?_⟩
    · rw [InitialBelief.text, InitialBelief.textBehind_eq (by simp [hsplit]), hsplit, List.map_cons, String.join_cons,
        String.append_assoc]
    · rw [F.entry_first hsplit hm hms, InitialBelief.textBehind_eq (by simp [Pdkb.quantified_ne_nil hk]),
        List.map_append, String.join_append, Pdkb.join_quantified, String.append_assoc]

/-- Both agents know that the coin shows tails, and one that the box is open. -/
def coinBeliefs : List InitialBelief := [
  ⟨[⟨true, ["a", "b"]⟩], ["tail"], by decide, by decide, by decide⟩,
  ⟨[⟨false, ["a"]⟩], ["opened", "box"], by decide, by decide, by decide⟩]

def coinDomain : Domain where
  name := .word "coin"
  objects := [("agent", [.word "a", .word "b"])]

def coin : Session where
  task :=
    { dialect := .levels
      domain := some coinDomain
      problem := some { name := .word "pb1", state := coinBeliefs.map InitialBelief.tree } }

example : Pdkb.initialBlock 2 2 coinBeliefs =
    "\n\t(:init-type complete)\n\t(:init" ++
    "\n\n\t\t;Depth 1" ++
    "\n\n\t\t(forall ?ag1 - agent\n\t\t\t[?ag1](tail))" ++
    "\n\n\t\t([a](opened box))" ++
    "\n\n\t\t;Depth 2" ++
    "\n\n\t\t(forall ?ag1 - agent\n\t\t\t(forall ?ag2 - agent\n\t\t\t\t[?ag2][?ag1](tail)))" ++
    "\n\t)\n" := by decide +kernel

theorem writePdkbProblem_initial_coin :
    (∃ goals, ((writePdkbProblem "out").perform coin).2.files.get? "out/pb1.pdkbpddl" = some
      (Pdkb.problemOpening "pb1" "coin" .standard coinDomain.objects ++ Pdkb.initialBlock 2 2 coinBeliefs ++ goals)) ∧
    ∀ F ∈ coinBeliefs, ∀ k text, F.entry 2 k = some text → Source.Balanced text.toList := by
  have hagents : coinDomain.agents = .ok [.word "a", .word "b"] := rfl
  have hdepth : Pdkb.depthNumber (coin.task.depth.getD .standard) = .ok (2 : Nat) := rfl
  obtain ⟨⟨goals, hleft⟩, -, -, hbalanced⟩ :=
    writePdkbProblem_initial (s := coin) rfl rfl rfl rfl hagents hdepth rfl "out"
  refine ⟨⟨goals, ?_⟩, fun F _ => hbalanced F⟩
  rw [hleft, Catalog.get?_insert]
  exact if_pos rfl

end Session
end Epistemic
