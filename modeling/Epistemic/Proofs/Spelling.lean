import Epistemic.Proofs.Declarations
import Epistemic.Proofs.EnclosedFormulas
import Epistemic.Proofs.GroupExchange
/-!
# How names are spelled

A hyphen before the name of a predicate says that it does not hold, and is written as `!`.  The hyphens inside of names
are written so as well, and those in the names of agents and objects (`respelled`), but the declarations of names keep
them.  So a formula is written with its names as they are exactly if there is no hyphen in them
(`formula_verbatim_iff`).
-/
namespace Epistemic

open Source (operatorName)

/-- Operators before a predicate that holds or not, with its arguments. -/
structure BeliefLiteral where
  operators : List (List String)
  negated : Bool
  name : String
  arguments : List String
  deriving DecidableEq, Repr

namespace Pdkb

/-- The agents of an operator in brackets. -/
def agentsText (agents : List String) : String := "[" ++ String.intercalate "," agents ++ "]"

/-- The text of operators before the words of an atom: the agents of each in brackets, and the words with blanks between
them, in parentheses if there is an operator. -/
def beliefText (operators : List (List String)) (atom : List String) : String :=
  String.join (operators.map agentsText) ++
    if operators.isEmpty then String.intercalate " " atom else "(" ++ String.intercalate " " atom ++ ")"

end Pdkb

namespace BeliefLiteral

/-- All names, those of agents before that of the predicate and those of its arguments. -/
def identifiers (L : BeliefLiteral) : List String := L.operators.flatten ++ L.name :: L.arguments

/-- The name of the predicate behind a mark that says that it does not hold. -/
def signed (mark : String) (L : BeliefLiteral) : String := if L.negated then mark ++ L.name else L.name

def words (L : BeliefLiteral) : List String := L.operators.map operatorName ++ L.signed "-" :: L.arguments

def tree (L : BeliefLiteral) : Tree := .list (L.words.map .word)

/-- What is to be written, with a mark before a predicate that does not hold. -/
def text (L : BeliefLiteral) : String := Pdkb.beliefText L.operators (L.signed "!" :: L.arguments)

def mapNames (f : String → String) (L : BeliefLiteral) : BeliefLiteral :=
  ⟨L.operators.map (List.map f), L.negated, f L.name, L.arguments.map f⟩

theorem identifiers_mapNames (f : String → String) (L : BeliefLiteral) :
    (L.mapNames f).identifiers = L.identifiers.map f := by
  simp [identifiers, mapNames, List.map_flatten]

theorem forall_identifiers {L : BeliefLiteral} {P : String → Prop} : (∀ w ∈ L.identifiers, P w) ↔
    (∀ as ∈ L.operators, ∀ a ∈ as, P a) ∧ P L.name ∧ ∀ w ∈ L.arguments, P w := by
  rw [identifiers, List.forall_mem_append, List.forall_mem_cons]
  refine and_congr_left fun _ => ⟨fun h as has a ha => h a (List.mem_flatten.2 ⟨as, has, ha⟩), fun h a ha => ?_⟩
  obtain ⟨as, has, ha⟩ := List.mem_flatten.1 ha
  exact h as has a ha

end BeliefLiteral

namespace Pdkb

/-- A word with its hyphens written as negations. -/
def respelled (w : String) : String := String.ofList (w.toList.map signChar)

theorem toList_respelled (w : String) : (respelled w).toList = w.toList.map signChar := String.toList_ofList

theorem hyphen_not_mem_respelled (w : String) : '-' ∉ (respelled w).toList := by
  rw [toList_respelled]
  intro h
  obtain ⟨c, -, hc⟩ := List.mem_map.1 h
  unfold signChar at hc
  split at hc
  · exact absurd hc (by decide)
  · contradiction

theorem respelled_of_not_mem {w : String} (h : '-' ∉ w.toList) : respelled w = w := by
  refine String.toList_inj.1 ((toList_respelled w).trans ?_)
  refine (List.map_congr_left fun c hc => if_neg ?_).trans (List.map_id _)
  rintro rfl
  exact h hc

@[simp] theorem respelled_respelled (w : String) : respelled (respelled w) = respelled w :=
  respelled_of_not_mem (hyphen_not_mem_respelled w)

theorem map_respelled_respelled (ws : List String) : (ws.map respelled).map respelled = ws.map respelled := by
  rw [List.map_map]
  exact List.map_congr_left fun w _ => respelled_respelled w

theorem respelled_append (s t : String) : respelled (s ++ t) = respelled s ++ respelled t := by
  refine String.toList_inj.1 ?_
  rw [toList_respelled, String.toList_append, List.map_append, String.toList_append, toList_respelled, toList_respelled]

theorem signChar_eq_iff {c d : Char} (hd : d ≠ '-') (hmark : d ≠ '!') : signChar c = d ↔ c = d := by
  unfold signChar
  split
  · rename_i h
    exact ⟨fun heq => absurd heq.symm hmark, fun heq => absurd (heq.symm.trans h) hd⟩
  · rfl

theorem mem_respelled {c : Char} (hc : c ≠ '-') (hmark : c ≠ '!') {w : String} :
    c ∈ (respelled w).toList ↔ c ∈ w.toList := by
  simp [toList_respelled, signChar_eq_iff hc hmark]

theorem sign_eq (w : String) : sign false (.word w) = .ok (.word (respelled w)) := sign_word w

/-! ## Words of a formula -/

/-- **A formula of words is written with its words respelled.** -/
theorem formulaFrom_respelled (ws : List String) : ∀ (skip opened : Nat) (behind : Bool),
    formulaFrom false skip opened behind ((ws.map respelled).map .word) =
      formulaFrom false skip opened behind (ws.map .word) := by
  induction ws with
  | nil => exact fun _ _ _ => rfl
  | cons w ws ih =>
    intro skip opened behind
    have hempty : ((ws.map respelled).map Tree.word).isEmpty = (ws.map Tree.word).isEmpty := by cases ws <;> rfl
    -- behind an operator only a list would be entered
    have hbehind : behindOperator false ((ws.map respelled).map .word) = behindOperator false (ws.map .word) := by
      cases ws <;> rfl
    cases skip with
    | succ skip => exact ih skip opened behind
    | zero =>
      rw [List.map_cons, List.map_cons, List.map_cons]
      rw [formulaFrom, formulaFrom, sign_eq, sign_eq, respelled_respelled]
      simp only [ih, hempty, hbehind]

theorem formula_respelled (ws : List String) :
    formula (.list ((ws.map respelled).map .word)) = formula (.list (ws.map .word)) :=
  formulaFrom_respelled ws 0 0 false

/-! ## The text of a formula -/

theorem map_intercalate (f : Char → Char) (sep : List Char) : ∀ ls : List (List Char),
    (sep.intercalate ls).map f = (sep.map f).intercalate (ls.map (List.map f))
  | [] => rfl
  | [l] => by simp
  | l :: k :: ls => by
    rw [List.intercalate_cons_cons, List.map_append, List.map_append, map_intercalate f sep (k :: ls)]
    simp only [List.map_cons, List.intercalate_cons_cons]

theorem respelled_intercalate {sep : String} (hsep : '-' ∉ sep.toList) (ws : List String) :
    respelled (String.intercalate sep ws) = String.intercalate sep (ws.map respelled) := by
  refine String.toList_inj.1 ?_
  rw [toList_respelled, String.toList_intercalate, map_intercalate, ← toList_respelled, respelled_of_not_mem hsep,
    String.toList_intercalate, List.map_map, List.map_map]
  exact congrArg _ (List.map_congr_left fun w _ => (toList_respelled w).symm)

/-- An operator: whether it has the mark of several agents, and its agents. -/
structure Modality where
  common : Bool
  agents : List String
  deriving DecidableEq, Repr

namespace Modality

/-- The operator that is read from agents in brackets. -/
def ofAgents (agents : List String) : Modality := ⟨!decide (agents.length ≤ 1), agents⟩

def name (m : Modality) : String := (if m.common then "C(" else "B(") ++ String.intercalate "," m.agents ++ ","

/-- The text of an operator: its agents in brackets. -/
def text (m : Modality) : String := agentsText (m.agents.map respelled)

/-- No parenthesis is opened in the names of the agents. -/
def Named (m : Modality) : Prop := ∀ a ∈ m.agents, '(' ∉ a.toList

end Modality

theorem operatorName_eq (as : List String) : operatorName as = (Modality.ofAgents as).name := by
  unfold operatorName Modality.ofAgents Modality.name
  by_cases h : as.length ≤ 1 <;> simp [h]

theorem Modality.toList_name (m : Modality) : m.name.toList =
    (if m.common then 'C' else 'B') :: '(' :: ([','].intercalate (m.agents.map String.toList) ++ [',']) := by
  rw [name, String.toList_append, String.toList_append, String.toList_intercalate]
  cases m.common <;> rfl

theorem Modality.respelled_name (m : Modality) :
    respelled m.name = (⟨m.common, m.agents.map respelled⟩ : Modality).name := by
  unfold name
  rw [respelled_append, respelled_append, respelled_intercalate (by decide),
    respelled_of_not_mem (w := ",") (by decide), apply_ite respelled,
    respelled_of_not_mem (w := "B(") (by decide), respelled_of_not_mem (w := "C(") (by decide)]

theorem respelled_operatorName (as : List String) : respelled (operatorName as) = operatorName (as.map respelled) := by
  rw [operatorName_eq, Modality.respelled_name, operatorName_eq, Modality.ofAgents, Modality.ofAgents, List.length_map]

theorem Modality.not_mem_behind {m : Modality} (h : m.Named) :
    '(' ∉ [','].intercalate (m.agents.map String.toList) ++ [','] := by
  rw [List.mem_append, not_or]
  exact ⟨Source.not_mem_intercalate_toList (by decide) h, by decide⟩

/-- **An operator is written as its agents in brackets, with their names respelled.** -/
theorem Modality.operator?_respelled {m : Modality} (h : m.Named) :
    operator? (.word (respelled m.name)) = .ok (some m.text) := by
  have hnamed : Modality.Named ⟨m.common, m.agents.map respelled⟩ := by
    intro a ha
    obtain ⟨b, hb, rfl⟩ := List.mem_map.1 ha
    exact fun hm => h b hb ((mem_respelled (by decide) (by decide)).1 hm)
  rw [respelled_name, operator?_eq (toList_name _) (by split <;> simp) (not_mem_behind hnamed)]
  congr 2
  refine String.toList_inj.1 ?_
  rw [inBrackets, ← List.cons_append, List.dropLast_concat, String.toList_ofList, text, agentsText,
    String.toList_append, String.toList_append, String.toList_intercalate]
  rfl

theorem operator?_of_not_mem {w : String} (h : '(' ∉ w.toList) : operator? (.word w) = .ok none := by
  have hnone : ∀ op : String, '(' ∈ op.toList → (Tree.word w).mentions op = false := fun op hop =>
    Bool.eq_false_iff.2 fun hmentions => h (Text.mem_of_occurs hop hmentions)
  simp [operator?, Tree.hasCommonBelief, Tree.hasBelief, hnone]

/-- The words of an atom are written with blanks between them, in parentheses behind an operator. -/
theorem formulaFrom_atom {ws : List String} (hne : ws ≠ []) (h : ∀ w ∈ ws, '(' ∉ w.toList) :
    ∀ (opened : Nat) (behind : Bool), formulaFrom false 0 opened behind (ws.map .word) =
      .ok ((if behind then "(" else "") ++ String.intercalate " " (ws.map respelled) ++
        closings (if behind then opened + 1 else opened)) := by
  induction ws with
  | nil => exact absurd rfl hne
  | cons w ws ih =>
    obtain ⟨hw, hws⟩ := List.forall_mem_cons.1 h
    have hplain := operator?_of_not_mem fun hm => hw ((mem_respelled (by decide) (by decide)).1 hm)
    intro opened behind
    rw [List.map_cons, formulaFrom, sign_eq]
    simp only [hplain]
    cases ws with
    | nil => simp [formulaFrom, Except.map, Tree.shown]
    | cons v ws =>
      rw [ih (by simp) hws]
      simp [Except.map, Tree.shown, String.intercalate_cons_cons, String.append_assoc]

theorem map_append_map (r : Except Fault String) (s t : String) :
    (r.map (t ++ ·)).map (s ++ ·) = r.map (s ++ t ++ ·) := by
  cases r <;> simp [Except.map, String.append_assoc]

theorem map_empty_append (r : Except Fault String) : r.map ("" ++ ·) = r := by
  cases r <;> simp [Except.map]

/-- What is written behind an operator. -/
def behindText (rest : List Tree) : Except Fault String :=
  match behindOperator false rest with
  | .error e => .error e
  | .ok (text, skip) => (formulaFrom false skip 0 true rest).map (text ++ ·)

/-- **An operator is written before what is written behind it**, whatever that is. -/
theorem formulaFrom_modality {m : Modality} (h : m.Named) (behind : Bool) (rest : List Tree) :
    formulaFrom false 0 0 behind (.word m.name :: rest) = (behindText rest).map (m.text ++ ·) := by
  rw [formulaFrom, sign_eq, behindText]
  simp only [Modality.operator?_respelled h]
  rcases behindOperator false rest with e | ⟨text, skip⟩
  · rfl
  · exact (map_append_map _ _ _).symm

theorem behindText_word (w : String) (rest : List Tree) :
    behindText (.word w :: rest) = formulaFrom false 0 0 true (.word w :: rest) := by
  rw [behindText, behindOperator, enclosed]
  exact map_empty_append _

/-- **Operators are written one behind the other.** -/
theorem behindText_modalities {ms : List Modality} (h : ∀ m ∈ ms, m.Named) (rest : List Tree) :
    behindText (ms.map (fun m => .word m.name) ++ rest) =
      (behindText rest).map (String.join (ms.map Modality.text) ++ ·) := by
  induction ms with
  | nil => exact (map_empty_append _).symm
  | cons m ms ih =>
    obtain ⟨hm, hms⟩ := List.forall_mem_cons.1 h
    rw [List.map_cons, List.cons_append, behindText_word, formulaFrom_modality hm, ih hms, map_append_map,
      List.map_cons, String.join_cons]

theorem formulaFrom_modalities {ms : List Modality} (hne : ms ≠ []) (h : ∀ m ∈ ms, m.Named) (behind : Bool)
    (rest : List Tree) : formulaFrom false 0 0 behind (ms.map (fun m => .word m.name) ++ rest) =
      (behindText rest).map (String.join (ms.map Modality.text) ++ ·) := by
  obtain ⟨m, ms, rfl⟩ := List.exists_cons_of_ne_nil hne
  obtain ⟨hm, hms⟩ := List.forall_mem_cons.1 h
  rw [List.map_cons, List.cons_append, formulaFrom_modality hm, behindText_modalities hms, map_append_map,
    List.map_cons, String.join_cons]

theorem behindText_atom {atom : List String} (hne : atom ≠ []) (hatom : ∀ w ∈ atom, '(' ∉ w.toList) :
    behindText (atom.map .word) = .ok ("(" ++ String.intercalate " " (atom.map respelled) ++ ")") := by
  obtain ⟨w, ws, rfl⟩ := List.exists_cons_of_ne_nil hne
  have htext := formulaFrom_atom hne hatom 0 true
  rw [List.map_cons] at htext ⊢
  rw [behindText_word, htext]
  rfl

theorem signed_mapNames (L : BeliefLiteral) : (L.mapNames respelled).signed "!" = respelled (L.signed "-") := by
  have hmark : respelled "-" = "!" := by decide
  unfold BeliefLiteral.signed BeliefLiteral.mapNames
  rw [apply_ite respelled, respelled_append, hmark]

/-- **Operators before the words of an atom are written as a belief with all names respelled.** -/
theorem formula_modalities {ms : List Modality} (h : ∀ m ∈ ms, m.Named) {atom : List String} (hne : atom ≠ [])
    (hatom : ∀ w ∈ atom, '(' ∉ w.toList) : formula (.list (ms.map (fun m => .word m.name) ++ atom.map .word)) =
      .ok (beliefText (ms.map fun m => m.agents.map respelled) (atom.map respelled)) := by
  rw [formula, Tree.items, beliefText, List.isEmpty_map]
  cases ms with
  | nil =>
    rw [List.map_nil, List.nil_append, formulaFrom_atom hne hatom]
    simp [closings]
  | cons m ms =>
    rw [formulaFrom_modalities (List.cons_ne_nil m ms) h, behindText_atom hne hatom, List.map_map]
    rfl

theorem formula_belief {operators : List (List String)} (h : ∀ as ∈ operators, ∀ a ∈ as, '(' ∉ a.toList)
    {atom : List String} (hne : atom ≠ []) (hatom : ∀ w ∈ atom, '(' ∉ w.toList) :
    formula (.list ((operators.map operatorName ++ atom).map .word)) =
      .ok (beliefText (operators.map (List.map respelled)) (atom.map respelled)) := by
  have hnamed : ∀ m ∈ operators.map Modality.ofAgents, m.Named := by
    intro m hm
    obtain ⟨as, has, rfl⟩ := List.mem_map.1 hm
    exact h as has
  have hwords : (operators.map operatorName ++ atom).map Tree.word =
      (operators.map Modality.ofAgents).map (fun m => .word m.name) ++ atom.map .word := by
    simp [operatorName_eq]
  rw [hwords, formula_modalities hnamed hne hatom, List.map_map]
  rfl

theorem formula_tree {L : BeliefLiteral} (h : ∀ w ∈ L.identifiers, '(' ∉ w.toList) :
    formula L.tree = .ok (L.mapNames respelled).text := by
  obtain ⟨hagents, hname, harguments⟩ := BeliefLiteral.forall_identifiers.1 h
  have hatom : ∀ w ∈ L.signed "-" :: L.arguments, '(' ∉ w.toList := by
    refine List.forall_mem_cons.2 ⟨?_, harguments⟩
    unfold BeliefLiteral.signed
    split
    · simpa using hname
    · exact hname
  rw [BeliefLiteral.tree, BeliefLiteral.words, formula_belief hagents (List.cons_ne_nil _ _) hatom, BeliefLiteral.text,
    signed_mapNames]
  rfl

/-! ## Hyphens in a text -/

/-- **Letters that are no marks of a text stand in its names.** -/
theorem count_beliefText {d : Char} (hd : d ∉ "[,]( )".toList) (operators : List (List String)) (atom : List String) :
    (beliefText operators atom).toList.count d = lettersIn d (operators.flatten ++ atom) := by
  have hmarks : d ∉ "[".toList ∧ d ∉ ",".toList ∧ d ∉ "]".toList ∧ d ∉ "(".toList ∧ d ∉ " ".toList ∧
      d ∉ ")".toList := by
    simpa using hd
  obtain ⟨hopen, hcomma, hclose, hparen, hblank, hclosing⟩ := hmarks
  have hoperators : (String.join (operators.map agentsText)).toList.count d = lettersIn d operators.flatten := by
    induction operators with
    | nil => rfl
    | cons as operators ih =>
      rw [List.map_cons, String.join_cons, String.toList_append, List.count_append, ih, agentsText,
        String.toList_append, String.toList_append, List.count_append, List.count_append, count_intercalate hcomma,
        List.count_eq_zero.2 hopen, List.count_eq_zero.2 hclose, List.flatten_cons, lettersIn_append]
      omega
  rw [beliefText, String.toList_append, List.count_append, hoperators, lettersIn_append]
  split
  · rw [count_intercalate hblank]
  · rw [String.toList_append, String.toList_append, List.count_append, List.count_append, count_intercalate hblank,
      List.count_eq_zero.2 hparen, List.count_eq_zero.2 hclosing]
    omega

theorem not_mem_beliefText {d : Char} (hd : d ∉ "[,]( )".toList) {operators : List (List String)} {atom : List String} :
    d ∉ (beliefText operators atom).toList ↔ ∀ w ∈ operators.flatten ++ atom, d ∉ w.toList := by
  rw [← List.count_eq_zero, count_beliefText hd, lettersIn_eq_zero]

theorem hyphen_not_mem_text (L : BeliefLiteral) : '-' ∉ L.text.toList ↔ ∀ w ∈ L.identifiers, '-' ∉ w.toList := by
  have hsigned : '-' ∈ (L.signed "!").toList ↔ '-' ∈ L.name.toList := by
    unfold BeliefLiteral.signed
    split <;> simp
  rw [BeliefLiteral.text, not_mem_beliefText (by decide), BeliefLiteral.identifiers, List.forall_mem_append,
    List.forall_mem_append, List.forall_mem_cons, List.forall_mem_cons, hsigned]

theorem map_respelled_of_not_mem {ws : List String} (h : ∀ w ∈ ws, '-' ∉ w.toList) : ws.map respelled = ws :=
  (List.map_congr_left fun w hw => respelled_of_not_mem (h w hw)).trans (List.map_id _)

theorem mapNames_of_not_mem {L : BeliefLiteral} (h : ∀ w ∈ L.identifiers, '-' ∉ w.toList) :
    L.mapNames respelled = L := by
  obtain ⟨hagents, hname, harguments⟩ := BeliefLiteral.forall_identifiers.1 h
  have hoperators : L.operators.map (List.map respelled) = L.operators :=
    (List.map_congr_left fun as has => map_respelled_of_not_mem (hagents as has)).trans (List.map_id _)
  rw [BeliefLiteral.mapNames, hoperators, respelled_of_not_mem hname, map_respelled_of_not_mem harguments]

/-- **A text keeps the names as they are exactly if there is no hyphen in them.** -/
theorem text_respelled_iff (L : BeliefLiteral) :
    (L.mapNames respelled).text = L.text ↔ ∀ w ∈ L.identifiers, '-' ∉ w.toList := by
  constructor
  · intro h
    refine (hyphen_not_mem_text L).1 (h ▸ (hyphen_not_mem_text _).2 fun w hw => ?_)
    rw [BeliefLiteral.identifiers_mapNames] at hw
    obtain ⟨u, -, rfl⟩ := List.mem_map.1 hw
    exact hyphen_not_mem_respelled u
  · intro h
    rw [mapNames_of_not_mem h]

/-! ## Places of formulas -/

/-- Two formulas that are written alike wherever a document has formulas. -/
structure WrittenAlike (t t' : Tree) : Prop where
  precondition : ∀ sign, precondition sign t = precondition sign t'
  effect : ∀ positive a m (e : Entry),
    effect positive a m { e with body := t } = effect positive a m { e with body := t' }
  condition : ∀ sign cs ds, listed sign (cs ++ t :: ds) = listed sign (cs ++ t' :: ds)
  initial : ∀ agents depth, initial agents depth t = initial agents depth t'
  goal : goal t = goal t'

theorem listed_congr {t t' : Tree} (h : formula t = formula t') (sign : String) (cs ds : List Tree) :
    listed sign (cs ++ t :: ds) = listed sign (cs ++ t' :: ds) := by
  induction cs with
  | nil => simp only [List.nil_append, listed, h]
  | cons c cs ih => simp only [List.cons_append, listed, ih]

theorem erase_map {α β : Type} [BEq α] [LawfulBEq α] [BEq β] [LawfulBEq β] {f : α → β} {as : List α} {a : α}
    (h : ∀ x ∈ as, f x = f a → x = a) : (as.map f).erase (f a) = (as.erase a).map f := by
  induction as with
  | nil => rfl
  | cons x as ih =>
    obtain ⟨hx, has⟩ := List.forall_mem_cons.1 h
    by_cases heq : x = a
    · subst heq
      simp
    · have hne : f x ≠ f a := fun hf => heq (hx hf)
      simp [heq, hne, ih has]

theorem hasCommonBelief_respelled (w : String) :
    (Tree.word (respelled w)).hasCommonBelief = (Tree.word w).hasCommonBelief := by
  refine Bool.eq_iff_iff.2 ⟨fun h => ?_, fun h => ?_⟩
  · obtain ⟨a, b, hsplit⟩ := Text.occurs_pair_iff.1 (h : Text.occurs ['C', '('] (respelled w).toList = true)
    rw [toList_respelled] at hsplit
    obtain ⟨a', rest, hw, -, hrest⟩ := List.map_eq_append_iff.1 hsplit
    obtain ⟨c, rest, rfl, hc, hrest⟩ := List.map_eq_cons_iff.1 hrest
    obtain ⟨d, b', rfl, hd, -⟩ := List.map_eq_cons_iff.1 hrest
    rw [signChar_eq_iff (by decide) (by decide)] at hc hd
    exact Text.occurs_pair_iff.2 ⟨a', b', by rw [hw, hc, hd]⟩
  · show Text.occurs ['C', '('] (respelled w).toList = true
    rw [toList_respelled]
    exact occurs_map_signChar (by decide) (by decide) h

theorem commas_respelled (w : String) : commas (.word (respelled w)) = commas (.word w) := by
  have hcomma : ∀ c, (Tree.word (String.ofList [signChar c]) == .word ",") =
      (Tree.word (String.ofList [c]) == .word ",") := by
    intro c
    unfold signChar
    split
    · subst c
      decide
    · rfl
  simp only [commas, Tree.items, toList_respelled, List.map_map, List.count, List.countP_map]
  exact congrArg (List.countP · w.toList) (funext hcomma)

theorem quantifiedOperators_eq (depth : Nat) : quantifiedOperators depth =
    ((List.range depth).reverse.map fun i => "B(" ++ agentVariable (i + 1) ++ ",").map .word := by
  rw [List.map_map]
  rfl

theorem filter_respelled (p : Tree → Bool) (hp : ∀ w, p (.word (respelled w)) = p (.word w)) (ws : List String) :
    ∃ us : List String, (ws.map Tree.word).filter p = us.map .word ∧
      ((ws.map respelled).map Tree.word).filter p = (us.map respelled).map .word ∧
      ∀ w, w ∈ us ↔ w ∈ ws ∧ p (.word w) = true := by
  refine ⟨ws.filter fun w => p (.word w), List.filter_map, ?_, fun w => List.mem_filter⟩
  rw [List.map_map, List.filter_map, List.map_map]
  exact congrArg _ (List.filter_congr fun w _ => hp w)

theorem quantifiedInitial_respelled (depth : Nat) {ws : List String} {u : String}
    (hu : ∀ w ∈ ws, respelled w = respelled u → w = u) :
    quantifiedInitial depth (.list ((ws.map respelled).map .word)) (.word (respelled u)) =
      quantifiedInitial depth (.list (ws.map .word)) (.word u) := by
  have herase : (ws.map Tree.word).erase (.word u) = (ws.erase u).map .word := erase_map fun _ _ => Tree.word.inj
  have herase' : ((ws.map respelled).map Tree.word).erase (.word (respelled u)) =
      ((ws.erase u).map respelled).map .word := by
    rw [erase_map fun _ _ => Tree.word.inj, erase_map hu]
  have hformula : formula (.list (quantifiedOperators depth ++ ((ws.erase u).map respelled).map .word)) =
      formula (.list (quantifiedOperators depth ++ (ws.erase u).map .word)) := by
    rw [quantifiedOperators_eq, ← List.map_append, ← List.map_append, ← formula_respelled, List.map_append,
      map_respelled_respelled, ← List.map_append, formula_respelled]
  unfold quantifiedInitial
  rw [Tree.items, Tree.items, herase, herase', hformula]

/-- **Formulas of the initial state are written alike at every depth**, whoever the agents are. -/
theorem initial_respelled (agents : Except Fault (List Tree)) (depth : Nat) (ws : List String) :
    initial agents depth (.list ((ws.map respelled).map .word)) = initial agents depth (.list (ws.map .word)) := by
  have hplain : plainInitial depth (.list ((ws.map respelled).map .word)) =
      plainInitial depth (.list (ws.map .word)) := by
    rw [plainInitial, formula_respelled]
    rfl
  obtain ⟨us, hus, hus', hmem⟩ := filter_respelled _ hasCommonBelief_respelled ws
  unfold initial
  simp only [Tree.items, hus, hus', List.isEmpty_map, hplain, formula_respelled]
  cases agents with
  | error e => rfl
  | ok agents =>
    obtain ⟨vs, hvs, hvs', hmem'⟩ := filter_respelled (fun o => commas o == agents.length)
      (fun w => by rw [commas_respelled]) us
    simp only [hvs, hvs']
    rcases vs with _ | ⟨u, _ | ⟨u', vs⟩⟩
    · rfl
    · -- a word that is respelled like the only operator of all agents is such an operator
      have hu : ∀ w ∈ ws, respelled w = respelled u → w = u := by
        intro w hw heq
        obtain ⟨hus, hcommas⟩ := (hmem' u).1 List.mem_cons_self
        have hcommon := ((hmem u).1 hus).2
        rw [← hasCommonBelief_respelled, ← heq, hasCommonBelief_respelled] at hcommon
        rw [← commas_respelled, ← heq, commas_respelled] at hcommas
        exact List.mem_singleton.1 ((hmem' w).2 ⟨(hmem w).2 ⟨hw, hcommon⟩, hcommas⟩)
      simp only [List.map_cons, List.map_nil, quantifiedInitial_respelled depth hu]
    · rfl

/-- **A formula of words and the one with its words respelled are written alike.** -/
theorem writtenAlike_of_map {ws us : List String} (h : ws.map respelled = us.map respelled) :
    WrittenAlike (.list (ws.map .word)) (.list (us.map .word)) := by
  have hformula : formula (.list (ws.map .word)) = formula (.list (us.map .word)) := by
    rw [← formula_respelled ws, h, formula_respelled]
  refine ⟨fun sign => ?_, fun positive a m e => ?_, listed_congr hformula, fun agents depth => ?_, ?_⟩
  · unfold precondition
    rw [hformula]
  · unfold effect
    simp only [hformula]
  · rw [← initial_respelled agents depth ws, h, initial_respelled]
  · unfold goal
    rw [hformula]

theorem words_mapNames (L : BeliefLiteral) : (L.mapNames respelled).words.map respelled = L.words.map respelled := by
  have hsigned : respelled ((L.mapNames respelled).signed "-") = respelled (L.signed "-") := by
    unfold BeliefLiteral.signed BeliefLiteral.mapNames
    split <;> simp [respelled_append]
  have hoperators : ((L.mapNames respelled).operators.map operatorName).map respelled =
      (L.operators.map operatorName).map respelled := by
    rw [BeliefLiteral.mapNames, List.map_map, List.map_map, List.map_map]
    refine List.map_congr_left fun as _ => ?_
    show respelled (operatorName (as.map respelled)) = respelled (operatorName as)
    rw [respelled_operatorName, respelled_operatorName, map_respelled_respelled]
  have harguments : (L.mapNames respelled).arguments.map respelled = L.arguments.map respelled :=
    map_respelled_respelled L.arguments
  unfold BeliefLiteral.words
  rw [List.map_append, List.map_append, List.map_cons, List.map_cons, hoperators, hsigned, harguments]

/-! ## Declared names -/

/-- The declarations of a domain have all names as they are. -/
structure DeclaresVerbatim (d : Domain) : Prop where
  predicates : Writes (predicateDeclaration d) (.ok ("\t" ++ predicateForm d ++ "\n\n"))
  agents : ∀ names, d.agents = .ok names → Writes (agentDeclaration d)
    (.ok ("\t(:agents" ++ String.join (names.map fun ag => " " ++ ag.shown) ++ ")\n\n"))
  objects : d.objects.length > 1 → objectDeclaration d.objects = "\n\t" ++ objectForm d.objects ++ "\n"

theorem mem_objects_of_agents {d : Domain} {names : List Tree} (h : d.agents = .ok names) :
    ("agent", names) ∈ d.objects := by
  unfold Domain.agents at h
  split at h
  · rename_i agents hget
    rw [← Except.ok.inj h]
    exact Catalog.mem_of_get? hget
  · cases h

theorem declaresVerbatim {d : Domain} (h : d.PlainNames) : DeclaresVerbatim d := by
  refine ⟨writes_predicateDeclaration h, fun names hnames => ?_, objectDeclaration_eq⟩
  have heach : Writes (Work.each (fun ag => do Draft.write (" " ++ (← nameIn ag))) names)
      (.ok (String.join (names.map fun ag => " " ++ ag.shown))) := by
    refine Writes.each_ok fun ag hag => ?_
    obtain ⟨w, rfl, -⟩ := ((h.2.1 _ (mem_objects_of_agents hnames)).2 ag hag).word
    exact writes_write (" " ++ w)
  unfold agentDeclaration
  rw [hnames, String.append_assoc]
  exact (writes_write _).bind (heach.bind (writes_write _))

end Pdkb

/-- The names of a formula are declared in a domain: that of its predicate, those of its arguments as objects, and those
of its agents as agents. -/
structure BeliefLiteral.DeclaredIn (L : BeliefLiteral) (d : Domain) : Prop where
  name : L.name ∈ d.predicates.keys
  arguments : ∀ w ∈ L.arguments, ∃ e ∈ d.objects, .word w ∈ e.2
  agents : ∀ as ∈ L.operators, ∀ a ∈ as, ∃ names, d.agents = .ok names ∧ .word a ∈ names

/-- No predicate and no object of a domain has a mark of negation in its name. -/
structure Domain.Unmarked (d : Domain) : Prop where
  predicates : ∀ name ∈ d.predicates.keys, '!' ∉ name.toList
  objects : ∀ e ∈ d.objects, ∀ w, .word w ∈ e.2 → '!' ∉ w.toList

namespace Pdkb

theorem mark_mem_respelled {w : String} (h : '-' ∈ w.toList) : '!' ∈ (respelled w).toList := by
  rw [toList_respelled]
  exact List.mem_map.2 ⟨'-', h, rfl⟩

/-- **The names that are written are declared exactly if there is no hyphen in them**, where no declared name has a
mark. -/
theorem declaredIn_respelled_iff {L : BeliefLiteral} {d : Domain} (hdeclared : L.DeclaredIn d)
    (hunmarked : d.Unmarked) : (L.mapNames respelled).DeclaredIn d ↔ ∀ w ∈ L.identifiers, '-' ∉ w.toList := by
  constructor
  · intro h
    refine BeliefLiteral.forall_identifiers.2 ⟨fun as has a ha hm => ?_, fun hm => ?_, fun w hw hm => ?_⟩
    · obtain ⟨names, hnames, hmem⟩ :=
        h.agents (as.map respelled) (List.mem_map_of_mem has) (respelled a) (List.mem_map_of_mem ha)
      exact hunmarked.objects _ (mem_objects_of_agents hnames) _ hmem (mark_mem_respelled hm)
    · exact hunmarked.predicates _ h.name (mark_mem_respelled hm)
    · obtain ⟨e, he, hmem⟩ := h.arguments (respelled w) (List.mem_map_of_mem hw)
      exact hunmarked.objects e he _ hmem (mark_mem_respelled hm)
  · intro h
    rwa [mapNames_of_not_mem h]

/-! ## The main result -/

/-- **When names are written as they are.**  A formula of operators before a predicate and its arguments is written with
each operator in brackets and the atom behind them, and the hyphen before a predicate that does not hold becomes a mark;
but all names are respelled.  So its text has the names as they are exactly if there is no hyphen in them.  Wherever a
document has the formula it is written like the one with respelled names, while the names of a domain are declared as
they are.  So if the names of the formula are declared, and no declared name has a mark in it, the names that are
written are declared ones exactly if there is no hyphen in them. -/
theorem formula_verbatim_iff (L : BeliefLiteral) (h : ∀ w ∈ L.identifiers, '(' ∉ w.toList) :
    formula L.tree = .ok (L.mapNames respelled).text ∧
    (formula L.tree = .ok L.text ↔ ∀ w ∈ L.identifiers, '-' ∉ w.toList) ∧
    WrittenAlike L.tree (L.mapNames respelled).tree ∧
    ∀ d : Domain, d.PlainNames → DeclaresVerbatim d ∧
      (L.DeclaredIn d → d.Unmarked →
        ((L.mapNames respelled).DeclaredIn d ↔ ∀ w ∈ L.identifiers, '-' ∉ w.toList)) := by
  refine ⟨formula_tree h, ?_, writtenAlike_of_map (words_mapNames L).symm, fun d hd => ⟨declaresVerbatim hd, ?_⟩⟩
  · rw [formula_tree h, Except.ok.injEq, text_respelled_iff]
  · exact declaredIn_respelled_iff

/-- A belief, and a domain in which its names are declared. -/
def tableBelief : BeliefLiteral := ⟨[["left-hand"]], true, "on-table", ["cup"]⟩

def tableDomain : Domain where
  predicates := [("on-table", [("?x", .word "thing")])]
  objects := [("agent", [.word "left-hand"]), ("thing", [.word "cup"])]

/-- The hyphens in the names of the agent and of the predicate become marks, and then they are not declared. -/
theorem formula_verbatim_iff_table :
    formula (.list [.word "B(left-hand,", .word "-on-table", .word "cup"]) = .ok "[left!hand](!on!table cup)" ∧
    formula (.list [.word "B(left-hand,", .word "-on-table", .word "cup"]) ≠ .ok "[left-hand](!on-table cup)" ∧
    tableBelief.DeclaredIn tableDomain ∧ ¬ (tableBelief.mapNames respelled).DeclaredIn tableDomain := by
  have hnames : ∀ w ∈ tableBelief.identifiers, '(' ∉ w.toList := by decide
  have hhyphens : ¬ ∀ w ∈ tableBelief.identifiers, '-' ∉ w.toList := by decide
  obtain ⟨hformula, hverbatim, -, hdeclared⟩ := formula_verbatim_iff tableBelief hnames
  have hdomain : tableBelief.DeclaredIn tableDomain := by
    refine ⟨by decide, fun w hw => ⟨("thing", [.word "cup"]), by decide, ?_⟩, fun as has a ha =>
      ⟨[.word "left-hand"], rfl, ?_⟩⟩
    · rw [List.mem_singleton.1 hw]
      decide
    · rw [List.mem_singleton.1 has] at ha
      rw [List.mem_singleton.1 ha]
      decide
  have hunmarked : tableDomain.Unmarked := by
    refine ⟨by decide, fun e he w hw => ?_⟩
    rcases List.mem_pair.1 he with rfl | rfl <;> rw [Tree.word.inj (List.mem_singleton.1 hw)] <;> decide
  refine ⟨hformula.trans (by decide), fun heq => hhyphens (hverbatim.1 (heq.trans (by decide))), hdomain, fun h => ?_⟩
  exact hhyphens (((hdeclared tableDomain (by decide +kernel)).2 hdomain hunmarked).1 h)

end Pdkb
end Epistemic
