import Epistemic.Proofs.FormulaNames
import Epistemic.Proofs.InitialBeliefs
/-!
# Where quantified agents stand

In a formula of the initial state with one operator of several agents, that operator is taken for all agents if it names
as many as there are, whoever they are.  The quantified agents that stand for it come before all other operators, not in
its place (`Pdkb.initial_groupBelief`).  Both can be told from the text: operators have a unique reading, and operators
with different agents commute with others only if those repeat them.
-/
namespace Epistemic
namespace Pdkb

/-! ## Formulas with one operator of several agents -/

/-- An operator of several agents behind operators of one agent each, and before anything without such an operator. -/
structure GroupBelief where
  before : List Modality
  agents : List String
  behind : List Tree
  individual : ∀ m ∈ before, m.common = false
  bare : ∀ m ∈ before, ∀ a ∈ m.agents, '(' ∉ a.toList ∧ ']' ∉ a.toList
  grouped : agents ≠ []
  separate : ∀ a ∈ agents, '(' ∉ a.toList ∧ ',' ∉ a.toList
  alone : ∀ t ∈ behind, t.hasCommonBelief = false

namespace GroupBelief

def operator (F : GroupBelief) : Modality := ⟨true, F.agents⟩

def tree (F : GroupBelief) : Tree :=
  .list (F.before.map (fun m => .word m.name) ++ .word F.operator.name :: F.behind)

/-- The operator names exactly the agents of the problem, in any order. -/
def NamesAll (F : GroupBelief) (agents : List Tree) : Prop := ∀ a, a ∈ F.agents ↔ .word a ∈ agents

/-- The formula with quantified agents in the place of the operator, inside their quantifiers. -/
def inPlace (F : GroupBelief) (depth : Nat) : Except Fault String :=
  (formula (.list (F.before.map (fun m => .word m.name) ++ (quantifiedOperators depth ++ F.behind)))).map
    (nestedFrom 1 depth)

/-- The operator is left as it is, or it names all agents and the quantified agents take its place. -/
def Faithful (F : GroupBelief) (agents : List Tree) (depth : Nat) : Prop :=
  initial (.ok agents) depth F.tree = plainInitial depth F.tree ∨
    F.NamesAll agents ∧ initial (.ok agents) depth F.tree = F.inPlace depth

end GroupBelief

/-! ## Reading operators back -/

/-- A text that ends at its only closing bracket. -/
def Bracketed (text : String) : Prop := ∃ cs, ']' ∉ cs ∧ text.toList = cs ++ [']']

theorem Modality.bracketed_text {m : Modality} (h : ∀ a ∈ m.agents, ']' ∉ a.toList) : Bracketed m.text := by
  have hnames : ']' ∉ [','].intercalate ((m.agents.map respelled).map String.toList) := by
    refine Source.not_mem_intercalate_toList (by decide) fun w hw hm => ?_
    obtain ⟨a, ha, rfl⟩ := List.mem_map.1 hw
    rw [toList_respelled] at hm
    obtain ⟨c, hc, hsign⟩ := List.mem_map.1 hm
    unfold signChar at hsign
    split at hsign
    · exact absurd hsign (by decide)
    · exact h a ha (hsign ▸ hc)
  refine ⟨'[' :: [','].intercalate ((m.agents.map respelled).map String.toList), ?_, ?_⟩
  · exact fun hm => hnames ((List.mem_cons.1 hm).resolve_left (by decide))
  · rw [text, agentsText, String.toList_append, String.toList_append, String.toList_intercalate]
    rfl

/-- **Bracketed texts can be told apart in their join.** -/
theorem join_bracketed_inj : ∀ {ts us : List String}, (∀ t ∈ ts, Bracketed t) → (∀ u ∈ us, Bracketed u) →
    String.join ts = String.join us → ts = us := by
  have hjoin : ∀ {t : String} {cs : List Char} (ts : List String), t.toList = cs ++ [']'] →
      (String.join (t :: ts)).toList = cs ++ ']' :: (String.join ts).toList := by
    intro t cs ts ht
    rw [String.join_cons, String.toList_append, ht, List.append_assoc]
    rfl
  intro ts
  induction ts with
  | nil =>
    intro us _ hus h
    cases us with
    | nil => rfl
    | cons u us =>
      obtain ⟨cs, -, hu⟩ := hus u List.mem_cons_self
      have hnil := congrArg String.toList h
      rw [hjoin us hu] at hnil
      simp at hnil
  | cons t ts ih =>
    intro us hts hus h
    obtain ⟨⟨cs, hcs, ht⟩, hts⟩ := List.forall_mem_cons.1 hts
    cases us with
    | nil =>
      have hnil := congrArg String.toList h
      rw [hjoin ts ht] at hnil
      simp at hnil
    | cons u us =>
      obtain ⟨⟨cs', hcs', hu⟩, hus⟩ := List.forall_mem_cons.1 hus
      have hlists := congrArg String.toList h
      rw [hjoin ts ht, hjoin us hu] at hlists
      obtain ⟨hfirst, hrest⟩ := BeliefFormula.append_cons_inj hcs hcs' hlists
      have htu : t = u := String.toList_inj.1 (by rw [ht, hu, hfirst])
      rw [htu, ih hts hus (String.toList_inj.1 hrest)]

/-- **Lists that commute with one without duplicates repeat it.** -/
theorem exists_replicate_of_append_comm {α : Type} {v : List α} (hv : v.Nodup) :
    ∀ {u : List α}, u ++ v = v ++ u → v ≠ [] → ∃ n, u = (List.replicate n v).flatten := by
  intro u
  induction hlength : u.length using Nat.strongRecOn generalizing u with
  | ind size ih =>
    intro h hne
    rcases List.append_eq_append_iff.1 h with ⟨w, hw, hw'⟩ | ⟨w, hw, hw'⟩
    · -- `u` is the shorter one: what it shares with `v` would stand there twice
      cases u with
      | nil => exact ⟨0, rfl⟩
      | cons x u =>
        cases w with
        | nil => exact ⟨1, by simpa using hw.symm⟩
        | cons y w =>
          rw [hw] at hw'
          obtain ⟨rfl, -⟩ := List.cons.inj hw'
          rw [hw] at hv
          exact absurd (List.mem_append_right u List.mem_cons_self) (List.nodup_cons.1 hv).1
    · have hcomm : w ++ v = v ++ w := by
        rw [hw, List.append_assoc] at h
        exact List.append_cancel_left h
      have hshorter : w.length < size := by
        rw [← hlength, hw, List.length_append]
        have := List.length_pos_of_ne_nil hne
        omega
      obtain ⟨n, hn⟩ := ih w.length hshorter rfl hcomm hne
      exact ⟨n + 1, by rw [hw, hn, List.replicate_succ, List.flatten_cons]⟩

theorem append_replicate_comm {α : Type} (v : List α) (n : Nat) :
    (List.replicate n v).flatten ++ v = v ++ (List.replicate n v).flatten := by
  have hsucc := congrArg List.flatten (List.replicate_succ' (n := n) (a := v))
  rw [List.replicate_succ, List.flatten_cons, List.flatten_append, List.flatten_singleton] at hsucc
  exact hsucc.symm

theorem agentVariable_inj {i j : Nat} (h : agentVariable i = agentVariable j) : i = j := by
  have hdigits := congrArg (fun w : String => Nat.ofDigitChars 10 w.toList 0) ((String.append_right_inj _).1 h)
  simpa [Nat.toString_eq_ofList_toDigits] using hdigits

theorem nodup_text_quantified (depth : Nat) : ((quantified depth).map Modality.text).Nodup := by
  rw [text_quantified, List.Nodup, List.pairwise_map, List.pairwise_reverse]
  refine List.nodup_range.imp fun hne h => hne ?_
  exact (Nat.succ.inj (agentVariable_inj ((String.append_right_inj _).1 ((String.append_left_inj _).1 h)))).symm

theorem bracketed_text_quantified (depth : Nat) : ∀ t ∈ (quantified depth).map Modality.text, Bracketed t := by
  intro t ht
  obtain ⟨m, hm, rfl⟩ := List.mem_map.1 ht
  obtain ⟨i, -, rfl⟩ := List.mem_map.1 hm
  refine Modality.bracketed_text fun a ha => ?_
  rw [List.mem_singleton.1 ha]
  exact not_mem_agentVariable (by decide) (by decide) (i + 1)

/-! ## What is written -/

theorem nestedFrom_inj {first count : Nat} {body body' : String}
    (h : nestedFrom first count body = nestedFrom first count body') : body = body' := by
  rw [nestedFrom_eq, nestedFrom_eq, String.append_left_inj, String.append_right_inj] at h
  exact h

theorem Modality.count_comma_name {m : Modality} (hne : m.agents ≠ []) (h : ∀ a ∈ m.agents, ',' ∉ a.toList) :
    m.name.toList.count ',' = m.agents.length := by
  have hcount : ∀ {as : List String}, as ≠ [] → (∀ a ∈ as, ',' ∉ a.toList) →
      ([','].intercalate (as.map String.toList) ++ [',']).count ',' = as.length := by
    intro as
    induction as with
    | nil => exact fun hne => absurd rfl hne
    | cons a as ih =>
      intro _ has
      obtain ⟨ha, has⟩ := List.forall_mem_cons.1 has
      cases as with
      | nil => simp [List.count_append, List.count_eq_zero.2 ha]
      | cons b bs =>
        have hrest := ih (List.cons_ne_nil b bs) has
        rw [List.map_cons, List.map_cons, List.intercalate_cons_cons, List.append_assoc, List.append_assoc,
          List.count_append, List.count_append, List.count_eq_zero.2 ha, List.count_singleton_self, ← List.map_cons,
          hrest]
        simp only [List.length_cons]
        omega
  rw [toList_name, List.count_cons_of_ne, List.count_cons_of_ne (by decide), hcount hne h]
  split <;> decide

theorem filter_common_eq_nil {ts : List Tree} (h : ∀ t ∈ ts, t.hasCommonBelief = false) :
    ts.filter Tree.hasCommonBelief = [] :=
  List.filter_eq_nil_iff.2 fun t ht => Bool.eq_false_iff.1 (h t ht)

namespace GroupBelief

variable (F : GroupBelief)

theorem named : ∀ m ∈ F.before ++ [F.operator], m.Named := by
  intro m hm a ha
  rcases List.mem_append.1 hm with hm | hm
  · exact (F.bare m hm a ha).1
  · rw [List.mem_singleton.1 hm] at ha
    exact (F.separate a ha).1

theorem named_before : ∀ m ∈ F.before, m.Named := fun m hm => F.named m (List.mem_append_left _ hm)

theorem isWide_operator (n : Nat) : F.operator.isWide n = decide (F.agents.length = n) := by
  rw [Modality.isWide, Modality.count_comma_name F.grouped fun a ha => (F.separate a ha).2]
  exact beq_eq_decide _ _

theorem hasCommonBelief_before : ∀ t ∈ F.before.map (fun m => Tree.word m.name), t.hasCommonBelief = false := by
  intro t ht
  obtain ⟨m, hm, rfl⟩ := List.mem_map.1 ht
  rw [Modality.hasCommonBelief_name (F.named_before m hm), F.individual m hm]

theorem hasCommonBelief_operator : (Tree.word F.operator.name).hasCommonBelief = true :=
  Modality.hasCommonBelief_name (F.named _ (List.mem_append_right _ List.mem_cons_self))

theorem filter_common : F.tree.items.filter Tree.hasCommonBelief = [.word F.operator.name] := by
  rw [tree, Tree.items, List.filter_append, filter_common_eq_nil F.hasCommonBelief_before,
    List.filter_cons_of_pos F.hasCommonBelief_operator, filter_common_eq_nil F.alone, List.nil_append]

theorem erase_operator :
    F.tree.items.erase (.word F.operator.name) = F.before.map (fun m => .word m.name) ++ F.behind := by
  have hfirst : Tree.word F.operator.name ∉ F.before.map fun m => Tree.word m.name := fun hm =>
    absurd (F.hasCommonBelief_before _ hm) (by rw [F.hasCommonBelief_operator]; decide)
  rw [tree, Tree.items, List.erase_append_right _ hfirst, List.erase_cons_head]

/-- The operator is exchanged if it names as many agents as there are. -/
theorem initial_eq (agents : List Tree) (depth : Nat) : initial (.ok agents) depth F.tree =
    if F.agents.length = agents.length then quantifiedInitial depth F.tree (.word F.operator.name)
    else plainInitial depth F.tree := by
  have hwide : (commas (.word F.operator.name) == agents.length) = decide (F.agents.length = agents.length) := by
    rw [commas_word, ← F.isWide_operator]
    rfl
  unfold initial
  rw [F.filter_common]
  by_cases h : F.agents.length = agents.length
  · simp [hwide, h]
  · simp [hwide, h]

theorem formula_tree : formula F.tree =
    (behindText F.behind).map (String.join (F.before.map Modality.text) ++ F.operator.text ++ ·) := by
  have hitems : F.tree.items = (F.before ++ [F.operator]).map (fun m => .word m.name) ++ F.behind := by
    simp [tree, Tree.items]
  rw [formula, hitems, formulaFrom_modalities (by simp) F.named, List.map_append, String.join_append]
  simp

theorem opens_text : ∃ rest, String.join (F.before.map Modality.text) ++ F.operator.text = "[" ++ rest := by
  have hopens : ∀ (m : Modality) (rest : String), ∃ rest', m.text ++ rest = "[" ++ rest' := by
    intro m rest
    rw [Modality.text, agentsText, String.append_assoc, String.append_assoc]
    exact ⟨_, rfl⟩
  cases F.before with
  | nil =>
    rw [List.map_nil, String.join_nil, String.empty_append]
    simpa using hopens F.operator ""
  | cons m ms =>
    rw [List.map_cons, String.join_cons, String.append_assoc]
    exact hopens m _

section
variable {F}
variable {body : String} (hbody : behindText F.behind = .ok body)
include hbody

theorem formula_behind {ms : List Modality} (hne : ms ≠ []) (hms : ∀ m ∈ ms, m.Named) :
    formula (.list (ms.map (fun m => .word m.name) ++ F.behind)) =
      .ok (String.join (ms.map Modality.text) ++ body) := by
  rw [formula, Tree.items, formulaFrom_modalities hne hms, hbody]
  rfl

variable {depth : Nat} (hdepth : 1 ≤ depth)
include hdepth

theorem quantifiedInitial_eq : quantifiedInitial depth F.tree (.word F.operator.name) = .ok (nestedFrom 1 depth
    (quantifiedText depth ++ String.join (F.before.map Modality.text) ++ body)) := by
  have hnamed : ∀ m ∈ quantified depth ++ F.before, m.Named :=
    List.forall_mem_append.2 ⟨named_quantified depth, F.named_before⟩
  rw [quantifiedInitial, F.erase_operator, quantifiedOperators_names, ← List.append_assoc, ← List.map_append,
    formula_behind hbody (by simp [quantified_ne_nil hdepth]) hnamed, List.map_append, String.join_append,
    join_quantified]
  simp only [Except.map, quantifiers_around]

theorem inPlace_eq : F.inPlace depth = .ok (nestedFrom 1 depth
    (String.join (F.before.map Modality.text) ++ quantifiedText depth ++ body)) := by
  have hnamed : ∀ m ∈ F.before ++ quantified depth, m.Named :=
    List.forall_mem_append.2 ⟨F.named_before, named_quantified depth⟩
  rw [inPlace, quantifiedOperators_names, ← List.append_assoc, ← List.map_append,
    formula_behind hbody (by simp [quantified_ne_nil hdepth]) hnamed, List.map_append, String.join_append,
    join_quantified]
  rfl

theorem quantifiedInitial_ne_plainInitial :
    quantifiedInitial depth F.tree (.word F.operator.name) ≠ plainInitial depth F.tree := by
  obtain ⟨rest, hrest⟩ := F.opens_text
  obtain ⟨count, rfl⟩ : ∃ count, depth = count + 1 := ⟨depth - 1, by omega⟩
  rw [quantifiedInitial_eq hbody hdepth, plainInitial, formula_tree, hbody, hrest, nestedFrom_succ]
  -- behind the parenthesis stands the quantifier in one text, an operator in the other
  intro h
  split at h
  · have hfourth := congrArg (fun text : String => text.toList[3]?) (Except.ok.inj h)
    simp at hfourth
  · have hfirst := congrArg (fun text : String => text.toList[0]?) (Except.ok.inj h)
    simp at hfirst

/-- **Before all operators is the place of the operator only if those before it repeat the quantified ones.** -/
theorem quantifiedInitial_eq_inPlace_iff :
    quantifiedInitial depth F.tree (.word F.operator.name) = F.inPlace depth ↔
      ∃ n, F.before.map Modality.text = (List.replicate n ((quantified depth).map Modality.text)).flatten := by
  have hbefore : ∀ t ∈ F.before.map Modality.text, Bracketed t := by
    intro t ht
    obtain ⟨m, hm, rfl⟩ := List.mem_map.1 ht
    exact Modality.bracketed_text fun a ha => (F.bare m hm a ha).2
  have hquantified := bracketed_text_quantified depth
  rw [quantifiedInitial_eq hbody hdepth, inPlace_eq hbody hdepth, ← join_quantified]
  constructor
  · intro h
    have hjoin := (String.append_left_inj _).1 (nestedFrom_inj (Except.ok.inj h))
    rw [← String.join_append, ← String.join_append] at hjoin
    refine exists_replicate_of_append_comm (nodup_text_quantified depth) (join_bracketed_inj ?_ ?_ hjoin).symm
      (by simp [quantified_ne_nil hdepth])
    · exact List.forall_mem_append.2 ⟨hquantified, hbefore⟩
    · exact List.forall_mem_append.2 ⟨hbefore, hquantified⟩
  · rintro ⟨n, hn⟩
    rw [hn, ← String.join_append, ← String.join_append, append_replicate_comm]

end

end GroupBelief

/-- **Quantified agents come first.**  In a formula with one operator of several agents, that operator is exchanged for
quantified agents exactly if it names as many agents as the problem has, and these stand before all other operators.  So
the operator is left as it is or exchanged in its place for the agents it names exactly if it names another number of
agents, or else all agents of the problem with nothing before it but the quantified agents themselves.  An operator of
several agents inside an inner formula is left as it is. -/
theorem initial_groupBelief (F : GroupBelief) {text : String} (hwritten : formula F.tree = .ok text)
    (agents : List Tree) {depth : Nat} (hdepth : 1 ≤ depth) :
    (∃ body, text = String.join (F.before.map Modality.text) ++ F.operator.text ++ body ∧
      initial (.ok agents) depth F.tree = if F.agents.length = agents.length then
          .ok (nestedFrom 1 depth (quantifiedText depth ++ String.join (F.before.map Modality.text) ++ body))
        else plainInitial depth F.tree) ∧
    (F.Faithful agents depth ↔ (F.agents.length = agents.length → F.NamesAll agents ∧
      ∃ n, F.before.map Modality.text = (List.replicate n ((quantified depth).map Modality.text)).flatten)) ∧
    ∀ t : Tree, (∀ item ∈ t.items, item.hasCommonBelief = false) →
      initial (.ok agents) depth t = plainInitial depth t := by
  obtain ⟨body, hbody, rfl⟩ : ∃ body, behindText F.behind = .ok body ∧
      String.join (F.before.map Modality.text) ++ F.operator.text ++ body = text := by
    rw [F.formula_tree] at hwritten
    cases hbehind : behindText F.behind with
    | error e => rw [hbehind] at hwritten; cases hwritten
    | ok body => rw [hbehind] at hwritten; exact ⟨body, rfl, Except.ok.inj hwritten⟩
  refine ⟨⟨body, rfl, ?_⟩, ?_, fun t ht => ?_⟩
  · rw [F.initial_eq, GroupBelief.quantifiedInitial_eq hbody hdepth]
  · rw [GroupBelief.Faithful, F.initial_eq]
    by_cases hnumber : F.agents.length = agents.length
    · simp only [hnumber, if_true, true_imp_iff, GroupBelief.quantifiedInitial_ne_plainInitial hbody hdepth, false_or,
        GroupBelief.quantifiedInitial_eq_inPlace_iff hbody hdepth]
    · simp only [hnumber, if_false, true_or, false_imp_iff]
  · rw [initial, filter_common_eq_nil ht]
    rfl

/-- What one agent believes of the beliefs of two. -/
def believedGroup : GroupBelief where
  before := [⟨false, ["a"]⟩]
  agents := ["a", "b"]
  behind := [.word "p"]
  individual := by decide
  bare := by decide
  grouped := by decide
  separate := by decide
  alone := by decide

theorem initial_groupBelief_believed :
    formula believedGroup.tree = .ok "[a][a,b](p)" ∧ believedGroup.NamesAll [.word "a", .word "b"] ∧
      initial (.ok [.word "a", .word "b"]) 1 believedGroup.tree = .ok "\t\t(forall ?ag1 - agent\n\t\t\t[?ag1][a](p))" ∧
      ¬ believedGroup.Faithful [.word "a", .word "b"] 1 := by
  have hwritten : formula believedGroup.tree = .ok "[a][a,b](p)" := by decide +kernel
  obtain ⟨-, hfaithful, -⟩ := initial_groupBelief believedGroup hwritten [.word "a", .word "b"] (Nat.le_refl 1)
  refine ⟨hwritten, fun a => by simp [believedGroup], by decide +kernel, fun h => ?_⟩
  obtain ⟨-, n, hrepeated⟩ := hfaithful.1 h rfl
  have hmem : "[a]" ∈ (List.replicate n ((quantified 1).map Modality.text)).flatten := by
    rw [← hrepeated]
    decide +kernel
  obtain ⟨ts, hts, hmem⟩ := List.mem_flatten.1 hmem
  rw [(List.mem_replicate.1 hts).2] at hmem
  exact absurd hmem (by decide +kernel)

end Pdkb
end Epistemic
