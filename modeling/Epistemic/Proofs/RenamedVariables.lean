import Epistemic.Proofs.QuantifiedClauses
import Mathlib.Algebra.BigOperators.Ring.List
/-!
# The variable of a quantifier in what is asked for

What a quantified clause asks of an agent is meant with the agent in all places of the variable.  The agent takes the
first place among the own words of each belief; the variable stays in the others, as the agent of an operator, and in
lists of their own.  So the condition is the one that is meant exactly if there are no such places
(`comesTo_renamed_iff`).  They are counted by the question marks that they leave behind.
-/
namespace Epistemic

open Source (IsPlainWord)
open Assignment (objectFor firstFor)
open MAp (terminated operatorText)

/-! ## Letters of a text -/

theorem sum_map_add_mul {α : Type} {f g s : α → Nat} {n : Nat} {l : List α} (h : ∀ a ∈ l, f a = g a + s a * n) :
    (l.map f).sum = (l.map g).sum + (l.map s).sum * n := by
  rw [List.map_congr_left h, List.sum_map_add, List.sum_map_mul_right]

theorem count_terminated {d : Char} (hd : d ∉ (";\n" : String).toList) (ss : List String) :
    (terminated ss).toList.count d = lettersIn d ss := by
  induction ss with
  | nil => simp [terminated, lettersIn]
  | cons s ss ih =>
    rw [MAp.terminated_cons, String.toList_append, String.toList_append, List.count_append, List.count_append, ih,
      List.count_eq_zero.2 hd, lettersIn_cons]
    omega

namespace Phrase

/-- How often a letter stands in the words and agents of a belief. -/
def letters (d : Char) : Phrase → Nat
  | atom ws => lettersIn d ws
  | believed as φ => lettersIn d as + φ.letters d
  | enclosed as φ => lettersIn d as + φ.letters d

theorem count_operatorText {d : Char} (hd : d ∉ "B(C[],".toList) (as : List String) :
    (operatorText as).toList.count d = lettersIn d as := by
  have hmarks : d ∉ "B(".toList ∧ d ∉ "C([".toList ∧ d ∉ ",".toList ∧ d ∉ "],".toList := by
    simp at hd ⊢
    tauto
  have hagents : (String.intercalate "," as).toList.count d = lettersIn d as := count_intercalate hmarks.2.2.1 as
  unfold operatorText
  split
  · rename_i hone
    rw [Source.operatorName, if_pos hone, String.toList_append, String.toList_append, List.count_append,
      List.count_append, hagents, List.count_eq_zero.2 hmarks.1, List.count_eq_zero.2 hmarks.2.2.1]
    omega
  · rw [String.toList_append, String.toList_append, List.count_append, List.count_append, hagents,
      List.count_eq_zero.2 hmarks.2.1, List.count_eq_zero.2 hmarks.2.2.2]
    omega

theorem count_text {d : Char} (hd : d ∉ "B(C[],)_".toList) (φ : Phrase) : φ.text.toList.count d = φ.letters d := by
  have hmarks : d ∉ "B(C[],".toList ∧ d ∉ ")".toList ∧ d ∉ "_".toList := by
    simp at hd ⊢
    tauto
  have hclosed : ∀ (as : List String) (φ : Phrase), φ.text.toList.count d = φ.letters d →
      (operatorText as ++ φ.text ++ ")").toList.count d = lettersIn d as + φ.letters d := by
    intro as φ ih
    rw [String.toList_append, String.toList_append, List.count_append, List.count_append, count_operatorText hmarks.1,
      ih, List.count_eq_zero.2 hmarks.2.1]
    omega
  induction φ with
  | atom ws => exact count_intercalate hmarks.2.2 ws
  | believed as φ ih => exact hclosed as φ ih
  | enclosed as φ ih => exact hclosed as φ ih

theorem ownFirst_perm (φs : List Phrase) : (ownFirst φs).Perm φs :=
  ((List.reverse_perm _).append_right _).trans (List.filter_append_perm _ _)

/-- **The letters of a condition are those of its beliefs.** -/
theorem count_conditionText {d : Char} (hd : d ∉ "B(C[],)_ if-".toList) (positive negative : List Phrase) :
    (conditionText positive negative).toList.count d = ((positive ++ negative).map (letters d)).sum := by
  have hmarks : d ∉ "B(C[],)_".toList ∧ d ∉ " if ".toList ∧ d ∉ ", ".toList ∧ d ∉ "-".toList := by
    simp at hd ⊢
    tauto
  have hsigned : ∀ affirmed φs, lettersIn d (signedTexts affirmed φs) = (φs.map (letters d)).sum := by
    intro affirmed φs
    have hsign : ∀ φ : Phrase, (MAp.signText affirmed ++ φ.text).toList.count d = φ.letters d := by
      intro φ
      have hnone : (MAp.signText affirmed).toList.count d = 0 := by
        cases affirmed with
        | false => exact List.count_eq_zero.2 hmarks.2.2.2
        | true => rfl
      rw [String.toList_append, List.count_append, hnone, count_text hmarks.1, Nat.zero_add]
    rw [lettersIn, signedTexts, List.map_map, ← ((ownFirst_perm φs).map (letters d)).sum_nat]
    exact congrArg List.sum (List.map_congr_left fun φ _ => hsign φ)
  rw [List.map_append, List.sum_append, ← hsigned true, ← hsigned false, ← lettersIn_append]
  unfold conditionText askedTexts
  split
  · rename_i hnone
    rw [hnone]
    rfl
  · rw [String.toList_append, List.count_append, List.count_eq_zero.2 hmarks.2.1, count_intercalate hmarks.2.2.1,
      Nat.zero_add]

/-! ## Places of a variable -/

/-- Some words with one name in all places of another. -/
def renamedIn (v x : String) (ws : List String) : List String := ws.map fun w => if w = v then x else w

/-- A belief with one name in all places of another. -/
def renamed (v x : String) : Phrase → Phrase
  | atom ws => atom (renamedIn v x ws)
  | believed as φ => believed (renamedIn v x as) (φ.renamed v x)
  | enclosed as φ => enclosed (renamedIn v x as) (φ.renamed v x)

/-- How many places a name has in a belief. -/
def places (v : String) : Phrase → Nat
  | atom ws => ws.count v
  | believed as φ => as.count v + φ.places v
  | enclosed as φ => as.count v + φ.places v

/-- How many places a name has besides the first one among the own words of a belief. -/
def strays (v : String) : Phrase → Nat
  | atom ws => ws.count v - 1
  | believed as φ => as.count v + φ.strays v
  | enclosed as φ => as.count v + φ.places v

theorem renamedIn_of_not_mem {v x : String} {ws : List String} (h : ws.count v = 0) : renamedIn v x ws = ws := by
  have hnot := List.count_eq_zero.1 h
  exact (List.map_congr_left fun w hw => if_neg fun (heq : w = v) => hnot (heq ▸ hw)).trans (List.map_id _)

theorem set_idxOf_eq_renamedIn {v x : String} : ∀ {ws : List String}, ws.count v - 1 = 0 →
    ws.set (ws.idxOf v) x = renamedIn v x ws
  | [], _ => rfl
  | w :: ws, h => by
    by_cases hw : w = v
    · subst hw
      have hrest : ws.count w = 0 := by
        rw [List.count_cons_self] at h
        omega
      rw [List.idxOf_cons_self, List.set_cons_zero, renamedIn, List.map_cons, if_pos rfl]
      exact congrArg (x :: ·) (renamedIn_of_not_mem hrest).symm
    · rw [List.count_cons_of_ne hw] at h
      rw [List.idxOf_cons_ne _ hw, List.set_cons_succ, set_idxOf_eq_renamedIn h, renamedIn, renamedIn, List.map_cons,
        if_neg hw]

theorem renamed_of_places {v x : String} {φ : Phrase} (h : φ.places v = 0) : φ.renamed v x = φ := by
  induction φ with
  | atom ws => rw [renamed, renamedIn_of_not_mem h]
  | believed as φ ih =>
    obtain ⟨has, hφ⟩ := Nat.add_eq_zero_iff.1 h
    rw [renamed, renamedIn_of_not_mem has, ih hφ]
  | enclosed as φ ih =>
    obtain ⟨has, hφ⟩ := Nat.add_eq_zero_iff.1 h
    rw [renamed, renamedIn_of_not_mem has, ih hφ]

/-- **Replacing a name where it stands first is renaming**, if it stands nowhere else. -/
theorem replaceFirst_eq_renamed {v x : String} {φ : Phrase} (h : φ.strays v = 0) :
    φ.replaceFirst v x = φ.renamed v x := by
  induction φ with
  | atom ws => rw [replaceFirst, renamed, set_idxOf_eq_renamedIn h]
  | believed as φ ih =>
    obtain ⟨has, hφ⟩ := Nat.add_eq_zero_iff.1 h
    rw [replaceFirst, renamed, renamedIn_of_not_mem has, ih hφ]
  | enclosed as φ _ =>
    obtain ⟨has, hφ⟩ := Nat.add_eq_zero_iff.1 h
    rw [replaceFirst, renamed, renamedIn_of_not_mem has, renamed_of_places hφ]

/-! ## What strays leave behind -/

section
variable {d : Char} {v x : String} {f : String → String} (hv : (f v).toList.count d = v.toList.count d)
  (hx : d ∉ (f x).toList)
include hv hx

/-- Renaming takes away the letters of the old name, in each of its places. -/
theorem lettersIn_map_renamedIn (ws : List String) :
    lettersIn d (ws.map f) = lettersIn d ((renamedIn v x ws).map f) + ws.count v * v.toList.count d := by
  induction ws with
  | nil => simp [lettersIn, renamedIn]
  | cons w ws ih =>
    have hcons : renamedIn v x (w :: ws) = (if w = v then x else w) :: renamedIn v x ws := rfl
    rw [hcons, List.map_cons, List.map_cons, lettersIn_cons, lettersIn_cons, ih]
    by_cases hw : w = v
    · subst hw
      rw [if_pos rfl, hv, List.count_eq_zero.2 hx, List.count_cons_self, Nat.succ_mul]
      omega
    · rw [if_neg hw, List.count_cons_of_ne hw]
      omega

theorem lettersIn_map_set (ws : List String) :
    lettersIn d (ws.map f) = lettersIn d ((ws.set (ws.idxOf v) x).map f) + if v ∈ ws then v.toList.count d else 0 := by
  induction ws with
  | nil => simp [lettersIn]
  | cons w ws ih =>
    by_cases hw : w = v
    · subst hw
      rw [List.idxOf_cons_self, List.set_cons_zero, List.map_cons, List.map_cons, lettersIn_cons, lettersIn_cons, hv,
        List.count_eq_zero.2 hx, if_pos List.mem_cons_self]
      omega
    · have hmem : v ∈ w :: ws ↔ v ∈ ws := by
        rw [List.mem_cons]
        exact or_iff_right fun heq => hw heq.symm
      rw [List.idxOf_cons_ne _ hw, List.set_cons_succ, List.map_cons, List.map_cons, lettersIn_cons, lettersIn_cons, ih]
      simp only [hmem]
      omega

theorem lettersIn_strays (ws : List String) : lettersIn d ((ws.set (ws.idxOf v) x).map f) =
    lettersIn d ((renamedIn v x ws).map f) + (ws.count v - 1) * v.toList.count d := by
  -- both sides are compared to the words with no place taken
  have hall := lettersIn_map_renamedIn hv hx ws
  have hfirst := lettersIn_map_set hv hx ws
  by_cases hmem : v ∈ ws
  · rw [if_pos hmem] at hfirst
    obtain ⟨n, hn⟩ := Nat.exists_eq_succ_of_ne_zero (Nat.pos_iff_ne_zero.1 (List.count_pos_iff.2 hmem))
    rw [hn, Nat.succ_mul] at hall
    rw [hn, Nat.succ_sub_one]
    omega
  · rw [if_neg hmem] at hfirst
    rw [List.count_eq_zero.2 hmem] at hall ⊢
    omega

end

end Phrase

/-- A variable and the name of an agent that are told apart by their question marks, as agents and objects have none,
such that an object is never written into the variable. -/
structure SetApart (vars objects : List String) (v x : String) : Prop where
  agent : '?' ∉ x.toList
  object : ∀ o ∈ objects, '?' ∉ o.toList
  kept : ∀ y ∈ vars, ∀ o ∈ objects, overwritten y o v = v

theorem overwritten_not_mem {d : Char} {y o w : String} (ho : d ∉ o.toList) (hw : d ∉ w.toList) :
    d ∉ (overwritten y o w).toList := by
  rw [overwritten, String.toList_ofList]
  exact fun hmem => (Text.mem_of_mem_replaceFrom hmem).elim ho hw

/-- What an operator of some agents is filled in with for one of them. -/
def agentFor (vars objects op : List String) (w : String) : String :=
  if op.length ≤ 1 then firstFor vars objects w
  else (lookedUp vars op).foldl (fun w y => overwritten y (objects.headD "") w) w

theorem filledAgents_eq_map (vars objects op : List String) :
    filledAgents vars objects op = op.map (agentFor vars objects op) := by
  have hover : ∀ (o : String) (ys ws : List String), ys.foldl (fun as y => as.map (overwritten y o)) ws =
      ws.map fun w => ys.foldl (fun w y => overwritten y o w) w := by
    intro o ys
    induction ys with
    | nil => simp
    | cons y ys ih =>
      intro ws
      rw [List.foldl_cons, ih, List.map_map]
      rfl
  unfold filledAgents
  by_cases hone : op.length ≤ 1
  · rw [if_pos hone]
    exact List.map_congr_left fun w _ => by rw [agentFor, if_pos hone]
  · rw [if_neg hone, hover]
    exact List.map_congr_left fun w _ => by rw [agentFor, if_neg hone]

section
variable {vars objects : List String} {v x : String}

/-- Names that are no variables are not looked up. -/
theorem agentFor_renamedIn (hv : v ∉ vars) (hx : x ∉ vars) (op : List String) :
    agentFor vars objects (Phrase.renamedIn v x op) = agentFor vars objects op := by
  have hkept : lookedUp vars (Phrase.renamedIn v x op) = lookedUp vars op := by
    rw [lookedUp, Phrase.renamedIn, ← List.map_dropLast, List.filter_map]
    have hfilter : op.dropLast.filter ((fun w => decide (w ∈ vars)) ∘ fun w => if w = v then x else w) =
        lookedUp vars op := by
      refine List.filter_congr fun w _ => ?_
      by_cases hw : w = v
      · simp [hw, hv, hx]
      · simp [hw]
    rw [hfilter]
    refine (List.map_congr_left fun w hw => if_neg fun (heq : w = v) => ?_).trans (List.map_id _)
    exact hv (heq ▸ (mem_of_mem_lookedUp hw).2)
  funext w
  rw [agentFor, agentFor, hkept, Phrase.renamedIn, List.length_map]

theorem SetApart.objectFor_eq (hapart : SetApart vars objects v x) (hv : v ∉ vars) (hx : x ∉ vars) :
    objectFor vars objects v = v ∧ '?' ∉ (objectFor vars objects x).toList := by
  rw [Assignment.objectFor_of_not_mem hv, Assignment.objectFor_of_not_mem hx]
  exact ⟨rfl, hapart.agent⟩

variable (h : ObjectsFor vars objects) (hapart : SetApart vars objects v x)
include h hapart

theorem SetApart.not_mem (hne : v.toList ≠ []) : v ∉ vars := by
  intro hmem
  obtain ⟨o, ho⟩ : ∃ o, o ∈ objects := by
    have hlength := h.length
    have hpos := List.length_pos_of_mem hmem
    exact List.exists_mem_of_length_pos (by omega)
  have hself := hapart.kept v hmem o ho
  rw [overwritten_self hne] at hself
  exact h.apart o ho (hself ▸ hmem)

/-- An operator keeps the variable, and has no question mark from the agent. -/
theorem SetApart.agentFor_eq (hv : v ∉ vars) (hx : x ∉ vars) (op : List String) :
    agentFor vars objects op v = v ∧ '?' ∉ (agentFor vars objects op x).toList := by
  unfold agentFor
  by_cases hone : op.length ≤ 1
  · rw [if_pos hone, if_pos hone, firstFor, if_neg hv, firstFor, if_neg hx]
    exact ⟨rfl, hapart.agent⟩
  · rw [if_neg hone, if_neg hone]
    have hagents : ∀ y ∈ lookedUp vars op, y ∈ vars ∧ objects.headD "" ∈ objects := fun y hy =>
      ⟨(mem_of_mem_lookedUp hy).2, h.headD_mem hy⟩
    -- for each variable that is looked up, what holds so far is kept
    refine ⟨?_, ?_⟩
    · refine List.foldlRecOn (lookedUp vars op) _ (motive := (· = v)) rfl fun w hw y hy => ?_
      rw [hw]
      exact hapart.kept y (hagents y hy).1 _ (hagents y hy).2
    · refine List.foldlRecOn (lookedUp vars op) _
        (motive := fun w : String => '?' ∉ w.toList) hapart.agent fun w hw y hy => ?_
      exact overwritten_not_mem (hapart.object _ (hagents y hy).2) hw

namespace Phrase

variable (hne : v.toList ≠ []) (hx : x ∉ vars)
include hne hx

theorem lettersIn_filledAgents (op : List String) : lettersIn '?' (filledAgents vars objects op) =
    lettersIn '?' (filledAgents vars objects (renamedIn v x op)) + op.count v * v.toList.count '?' := by
  have hv := hapart.not_mem h hne
  obtain ⟨hkept, hmark⟩ := hapart.agentFor_eq h hv hx op
  rw [filledAgents_eq_map, filledAgents_eq_map, agentFor_renamedIn hv hx]
  exact lettersIn_map_renamedIn (congrArg (·.toList.count '?') hkept) hmark op

theorem letters_filled (φ : Phrase) : (φ.filled vars objects).letters '?' =
    ((φ.renamed v x).filled vars objects).letters '?' + φ.places v * v.toList.count '?' := by
  induction φ with
  | atom ws =>
    obtain ⟨hkept, hmark⟩ := hapart.objectFor_eq (hapart.not_mem h hne) hx
    exact lettersIn_map_renamedIn (congrArg (·.toList.count '?') hkept) hmark ws
  | believed as φ ih =>
    rw [filled, renamed, filled, letters, letters, places, ih, lettersIn_filledAgents h hapart hne hx, Nat.add_mul]
    omega
  | enclosed as φ ih =>
    rw [filled, renamed, filled, letters, letters, places, ih, lettersIn_filledAgents h hapart hne hx, Nat.add_mul]
    omega

/-- **Each stray leaves the question marks of the variable behind.** -/
theorem letters_replaceFirst (φ : Phrase) : ((φ.replaceFirst v x).filled vars objects).letters '?' =
    ((φ.renamed v x).filled vars objects).letters '?' + φ.strays v * v.toList.count '?' := by
  induction φ with
  | atom ws =>
    obtain ⟨hkept, hmark⟩ := hapart.objectFor_eq (hapart.not_mem h hne) hx
    exact lettersIn_strays (congrArg (·.toList.count '?') hkept) hmark ws
  | believed as φ ih =>
    rw [replaceFirst, filled, renamed, filled, letters, letters, strays, ih, lettersIn_filledAgents h hapart hne hx,
      Nat.add_mul]
    omega
  | enclosed as φ _ =>
    rw [replaceFirst, filled, renamed, filled, letters, letters, strays, letters_filled h hapart hne hx φ,
      lettersIn_filledAgents h hapart hne hx, Nat.add_mul]
    omega

end Phrase
end

theorem Phrase.letters_of_isPlain {d : Char} (hd : Source.isWordChar d = false) {φ : Phrase} (hφ : φ.IsPlain) :
    φ.letters d = 0 := by
  have hnone : ∀ {ws : List String}, (∀ w ∈ ws, IsPlainWord w) → lettersIn d ws = 0 := by
    intro ws hws
    refine List.sum_eq_zero_iff_forall_eq_nat.2 fun n hn => ?_
    obtain ⟨w, hw, rfl⟩ := List.mem_map.1 hn
    exact List.count_eq_zero.2 ((hws w hw).not_mem hd)
  induction φ with
  | atom ws => exact hnone hφ.2
  | believed as φ ih => rw [letters, hnone hφ.1, ih hφ.2]
  | enclosed as φ ih => rw [letters, hnone hφ.1, ih hφ.2]

/-! ## What a clause asks for -/

namespace QuantifiedClause

variable (c : QuantifiedClause)

/-- A belief of a ground action as it is meant for an agent. -/
def renamedFor (vars objects : List String) (x : String) (φ : Phrase) : Phrase :=
  (φ.renamed c.var x).filled vars objects

/-- How many places of the variable the agent does not take. -/
def strays : Nat := ((c.asked true ++ c.asked false).map (Phrase.strays c.var)).sum

variable {c} {vars objects : List String}

theorem statement_renamedFor (hc : c.strays = 0) (name verb : String) :
    c.statement name verb (c.filledFor vars objects) = c.statement name verb (c.renamedFor vars objects) := by
  funext x
  have hsame : ∀ φ ∈ c.asked true ++ c.asked false, c.filledFor vars objects x φ = c.renamedFor vars objects x φ := by
    intro φ hφ
    have hnone : φ.strays c.var = 0 := List.sum_eq_zero_iff_forall_eq_nat.1 hc _ (List.mem_map_of_mem hφ)
    rw [filledFor, renamedFor, Phrase.replaceFirst_eq_renamed hnone]
  obtain ⟨hpos, hneg⟩ := List.forall_mem_append.1 hsame
  rw [statement, statement, text, text, List.map_congr_left hpos, List.map_congr_left hneg]

theorem mem_of_mem_kept {agents : List String} {x : String} (hx : x ∈ c.kept vars objects agents) : x ∈ agents := by
  unfold kept at hx
  cases hout : c.leftOut with
  | nil => simp [hout] at hx
  | cons d ds =>
    rw [hout] at hx
    exact (List.mem_filter.1 hx).1

variable (h : ObjectsFor vars objects)
include h

theorem count_text {x : String} (hx : x ∉ vars) (hapart : SetApart vars objects c.var x) :
    (c.text (c.filledFor vars objects x)).toList.count '?' =
      (c.text (c.renamedFor vars objects x)).toList.count '?' + c.strays * c.var.toList.count '?' := by
  rw [text, text, Phrase.count_conditionText (by decide), Phrase.count_conditionText (by decide), ← List.map_append,
    ← List.map_append, List.map_map, List.map_map]
  exact sum_map_add_mul fun φ _ => Phrase.letters_replaceFirst h hapart c.var_plain.1 hx φ

theorem lettersIn_statements {agents : List String} (hagents : ∀ x ∈ agents, IsAgentName vars x)
    (hapart : ∀ x ∈ agents, SetApart vars objects c.var x) (name verb : String) :
    lettersIn '?' (agents.map (c.statement name verb (c.filledFor vars objects))) =
      lettersIn '?' (agents.map (c.statement name verb (c.renamedFor vars objects))) +
        agents.length * c.strays * c.var.toList.count '?' := by
  have hstatement : ∀ x ∈ agents, (c.statement name verb (c.filledFor vars objects) x).toList.count '?' =
      (c.statement name verb (c.renamedFor vars objects) x).toList.count '?' + c.strays * c.var.toList.count '?' := by
    intro x hx
    simp only [statement, String.toList_append, List.count_append]
    rw [count_text h (hagents x hx).apart (hapart x hx)]
    omega
  have hstrays : (agents.map fun _ => c.strays).sum = agents.length * c.strays := by
    rw [List.map_const', List.sum_replicate, Nat.nsmul_eq_mul]
  rw [lettersIn, lettersIn, List.map_map, List.map_map, ← hstrays]
  exact sum_map_add_mul hstatement

/-- The letters of marks do not get into a condition. -/
theorem mark_not_mem_text (hc : c.Settles vars objects) {x : String} (hx : IsPlainWord x) :
    'F' ∉ (c.text (c.filledFor vars objects x)).toList := by
  rw [← List.count_eq_zero, text, Phrase.count_conditionText (by decide), ← List.map_append]
  refine List.sum_eq_zero_iff_forall_eq_nat.2 fun n hn => ?_
  rw [List.map_map] at hn
  obtain ⟨φ, hφ, rfl⟩ := List.mem_map.1 hn
  exact Phrase.letters_of_isPlain (by decide) (isPlain_filledFor h hx (hc φ hφ))

theorem var_mem_text_iff {x : String} (hx : x ∉ vars) (hapart : SetApart vars objects c.var x)
    (hmeant : '?' ∉ (c.text (c.renamedFor vars objects x)).toList) :
    '?' ∈ (c.text (c.filledFor vars objects x)).toList ↔ c.strays ≠ 0 := by
  have hvar := List.count_pos_iff.2 c.var_marked
  rw [← List.count_pos_iff, count_text h hx hapart, List.count_eq_zero.2 hmeant, Nat.zero_add,
    Nat.mul_pos_iff_of_pos_right hvar, Nat.pos_iff_ne_zero]

theorem terminated_renamedFor_iff {agents : List String} (hagents : ∀ x ∈ agents, IsAgentName vars x)
    (hapart : ∀ x ∈ agents, SetApart vars objects c.var x) (name verb : String) :
    terminated (agents.map (c.statement name verb (c.filledFor vars objects))) =
      terminated (agents.map (c.statement name verb (c.renamedFor vars objects))) ↔ agents = [] ∨ c.strays = 0 := by
  constructor
  · intro heq
    have hcount := congrArg (fun s : String => s.toList.count '?') heq
    simp only [count_terminated (d := '?') (by decide), lettersIn_statements h hagents hapart] at hcount
    have hnone : agents.length * c.strays * c.var.toList.count '?' = 0 := by omega
    have hvar := List.count_pos_iff.2 c.var_marked
    rcases Nat.mul_eq_zero.1 hnone with hnone | hnone
    · exact (Nat.mul_eq_zero.1 hnone).imp_left List.length_eq_zero_iff.1
    · omega
  · rintro (rfl | hnone)
    · rfl
    · rw [statement_renamedFor hnone]

end QuantifiedClause

/-- **A quantified clause does not ask of each agent what is meant.**  The statement of an agent asks for what the
clause asks for with the agent in the first place of the variable among the own words of each belief, and has no letter
of a mark.  That is the agent in all places of the variable if there is no other place; and as far as question marks
tell the variable from agents and objects, it is so only then, and the variable is left in each statement else. -/
theorem comesTo_renamed_iff (a : Action) (known : List Entry) (c : QuantifiedClause) (vars objects agents : List String)
    (h : ObjectsFor vars objects) (hc : c.Settles vars objects) (hagents : ∀ x ∈ agents, IsAgentName vars x)
    (name verb : String) :
    ComesTo a known c.tree vars objects agents name verb (c.outcome agents)
      (terminated ((c.kept vars objects agents).map (c.statement name verb (c.filledFor vars objects)))) ∧
    (∀ x ∈ c.kept vars objects agents, 'F' ∉ (c.text (c.filledFor vars objects x)).toList) ∧
    (c.strays = 0 → ComesTo a known c.tree vars objects agents name verb (c.outcome agents)
      (terminated ((c.kept vars objects agents).map (c.statement name verb (c.renamedFor vars objects))))) ∧
    ((∀ x ∈ agents, SetApart vars objects c.var x) →
      (ComesTo a known c.tree vars objects agents name verb (c.outcome agents)
        (terminated ((c.kept vars objects agents).map (c.statement name verb (c.renamedFor vars objects)))) ↔
        c.kept vars objects agents = [] ∨ c.strays = 0) ∧
      ∀ x ∈ c.kept vars objects agents, '?' ∉ (c.text (c.renamedFor vars objects x)).toList →
        ('?' ∈ (c.text (c.filledFor vars objects x)).toList ↔ c.strays ≠ 0)) := by
  have hcomes := c.comesTo a known h hc hagents name verb
  have hkept : ∀ x ∈ c.kept vars objects agents, x ∈ agents := fun x hx => QuantifiedClause.mem_of_mem_kept hx
  refine ⟨hcomes, fun x hx => ?_, fun hnone => ?_, fun hapart => ⟨?_, fun x hx => ?_⟩⟩
  · exact QuantifiedClause.mark_not_mem_text h hc (hagents x (hkept x hx)).plain
  · rwa [QuantifiedClause.statement_renamedFor hnone] at hcomes
  · have hiff := QuantifiedClause.terminated_renamedFor_iff h (fun x hx => hagents x (hkept x hx))
      (fun x hx => hapart x (hkept x hx)) name verb
    constructor
    · exact fun hmeant => hiff.1 (hcomes.unique hmeant).2
    · intro hnone
      rwa [hiff.2 hnone] at hcomes
  · exact QuantifiedClause.var_mem_text_iff h (hagents x (hkept x hx)).apart (hapart x (hkept x hx))

/-- Whoever shows what a parameter stands for to themselves, and does not believe that they are told. -/
def selfShown : QuantifiedClause where
  var := "?y"
  excluded := none
  demand := some (.all [
    ⟨true, .atom ["shows", "?y", "?x", "?y"], "shows", [.word "?y", .word "?x", .word "?y"], rfl, by decide⟩,
    ⟨false, .believed ["?y"] (.atom ["told", "?y"]), "B(?y,", [.word "told", .word "?y"], by decide, by decide⟩])
  var_plain := by decide +kernel
  var_marked := by decide
  excluded_plain := by
    rintro ds hds
    cases hds

/-- The agents take the first place among the words, and no other. -/
theorem comesTo_renamed_iff_selfShown :
    ComesTo { name := "go", observers := .levels [] [] } [] selfShown.tree ["?x"] ["o"] ["a", "b"]
      "go" " observes " (.ok ())
      "a observes go if shows_a_o_?y, -B(?y,told_a);\nb observes go if shows_b_o_?y, -B(?y,told_b);\n" ∧
    ¬ComesTo { name := "go", observers := .levels [] [] } [] selfShown.tree ["?x"] ["o"] ["a", "b"]
      "go" " observes " (.ok ())
      "a observes go if shows_a_o_a, -B(a,told_a);\nb observes go if shows_b_o_b, -B(b,told_b);\n" := by
  have hplain : ∀ w ∈ ["shows", "told", "?y", "?x", "o", "a", "b"], IsAgentWord w := by decide +kernel
  have hobjects : ObjectsFor ["?x"] ["o"] :=
    ⟨by decide, rfl, by decide, List.forall_mem_singleton.2 (hplain _ (by decide)).1,
      List.forall_mem_singleton.2 (hplain _ (by decide))⟩
  have hsettled : SettledOperator ["?x"] ["o"] ["?y"] :=
    ⟨by decide, List.forall_mem_singleton.2 (hplain _ (by decide)), by decide, by decide⟩
  have hagents : ∀ x ∈ ["a", "b"], IsAgentName ["?x"] x := fun x hx =>
    ⟨(hplain x (by revert x; decide)).1, by revert x; decide, by revert x; decide⟩
  have hclause : selfShown.Settles ["?x"] ["o"] := by
    refine List.forall_mem_cons.2 ⟨⟨by decide, fun w hw => (hplain w ?_).1⟩,
      List.forall_mem_singleton.2 ⟨hsettled, by decide, fun w hw => (hplain w ?_).1⟩⟩
    · revert w; decide
    · revert w; decide
  have h := comesTo_renamed_iff { name := "go", observers := .levels [] [] } [] selfShown ["?x"] ["o"]
    ["a", "b"] hobjects hclause hagents "go" " observes "
  have hapart : ∀ x ∈ ["a", "b"], SetApart ["?x"] ["o"] "?y" x := fun x hx =>
    ⟨by revert x; decide, by decide, by decide⟩
  refine ⟨h.1, fun hmeant => ?_⟩
  exact absurd ((h.2.2.2 hapart).1.1 hmeant) (by decide)

end Epistemic
