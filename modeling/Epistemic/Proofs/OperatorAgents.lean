import Epistemic.Proofs.Conditions
import Epistemic.Proofs.Filling
/-!
# Which object an operator receives

The words of a formula are filled in with the object of their own variable, and an operator of one agent with the first
object, whichever variable its agent is.  The two agree exactly if the variables of all operators stand for the first
object (`substitute_nestedBelief_iff`).
-/
namespace Epistemic

/-- The operator of one agent. -/
def beliefWord (agent : String) : Tree := .word ("B(" ++ agent ++ ",")

/-- What agents believe of each other's beliefs in an atom, in one list. -/
def nestedBelief (agents args : List String) : Tree := .list (agents.map beliefWord ++ args.map .word)

instance (w : String) : Decidable (Source.IsTokenWord w) :=
  decidable_of_iff (w ≠ "" ∧ '(' ∉ w.toList ∧ '\n' ∉ w.toList)
    ⟨fun ⟨hne, hparen, hline⟩ => ⟨hne, hparen, hline⟩, fun h => ⟨h.nonempty, h.parenthesis, h.newline⟩⟩

theorem Source.IsTokenWord.isOperator_eq_false {w : String} (h : Source.IsTokenWord w) :
    Literals.isOperator (.word w) = false :=
  Bool.eq_false_iff.2 fun hop => h.parenthesis (parenthesis_mem_of_isOperator hop)

section
variable {x : String} (hx : Source.IsTokenWord x)
include hx

theorem isOperatorWord_beliefWord : IsOperatorWord ("B(" ++ x ++ ",") [] 'B' x.toList [] :=
  isOperatorWord_belief hx.parenthesis hx.newline

theorem hasBelief_beliefWord : (beliefWord x).hasBelief = true :=
  (isOperatorWord_beliefWord hx).hasBelief_iff.2 rfl

theorem hasCommonBelief_beliefWord : (beliefWord x).hasCommonBelief = false := by
  rw [← Bool.not_eq_true, beliefWord, (isOperatorWord_beliefWord hx).hasCommonBelief_iff]
  decide

theorem insideOperator_beliefWord : Assignment.insideOperator "B(" ("B(" ++ x ++ ",") = x := by
  have hne : x.toList ≠ [] := fun hnil => hx.nonempty (String.toList_inj.1 hnil)
  rw [(isOperatorWord_beliefWord hx).insideOperator_eq rfl, if_neg hne, List.nil_append, List.append_nil,
    String.ofList_toList]

end

theorem beliefWord_inj {x y : String} : beliefWord x = beliefWord y ↔ x = y := by
  constructor
  · intro h
    have hlist := congrArg String.toList (Tree.word.inj h)
    exact String.toList_inj.1 (by simpa using hlist)
  · rintro rfl
    rfl

namespace Assignment

/-- Names of variables and of the objects that stand for them. -/
def ofNames (vars objects : List String) : Assignment := ⟨vars.map .word, objects.map .word⟩

/-- The object that stands for a variable.  Any other word stands for itself. -/
def objectFor (vars objects : List String) (w : String) : String := ((vars.zip objects).lookup w).getD w

/-- The first object for every variable.  Any other word stands for itself. -/
def firstFor (vars objects : List String) (w : String) : String := if w ∈ vars then objects.headD w else w

theorem objectFor_of_not_mem {w : String} : ∀ {vars objects : List String}, w ∉ vars → objectFor vars objects w = w
  | [], _, _ => rfl
  | v :: vars, [], _ => rfl
  | v :: vars, o :: objects, h => by
    rw [List.mem_cons, not_or] at h
    have hrest : objectFor vars objects w = w := objectFor_of_not_mem h.2
    rw [objectFor, List.zip_cons_cons, List.lookup_cons, beq_false_of_ne h.1]
    exact hrest

theorem objectFor_eq_or_mem (w : String) : ∀ vars objects : List String,
    objectFor vars objects w = w ∨ objectFor vars objects w ∈ objects
  | [], _ => .inl rfl
  | _ :: _, [] => .inl rfl
  | v :: vars, o :: objects => by
    rw [objectFor, List.zip_cons_cons, List.lookup_cons]
    by_cases h : w = v
    · simp [h]
    · rw [beq_false_of_ne h]
      exact (objectFor_eq_or_mem w vars objects).imp_right (List.mem_cons_of_mem o)

theorem forall_mem_map_objectFor {P : String → Prop} {vars objects ws : List String} (hobjects : ∀ o ∈ objects, P o)
    (hws : ∀ w ∈ ws, P w) : ∀ w ∈ ws.map (objectFor vars objects), P w := by
  intro y hy
  obtain ⟨w, hw, rfl⟩ := List.mem_map.1 hy
  rcases objectFor_eq_or_mem w vars objects with heq | hmem
  · rw [heq]
    exact hws w hw
  · exact hobjects _ hmem

theorem objectFor_cons {v w : String} (h : w ≠ v) (o : String) (vars objects : List String) :
    objectFor (v :: vars) (o :: objects) w = objectFor vars objects w := by
  rw [objectFor, List.zip_cons_cons, List.lookup_cons, beq_false_of_ne h]
  rfl

theorem objectFor_getElem {v o : String} : ∀ {vars objects : List String} {k : Nat}, vars.Nodup →
    vars[k]? = some v → objects[k]? = some o → objectFor vars objects v = o
  | u :: vars, p :: objects, 0, _, hv, ho => by
    cases hv
    cases ho
    simp [objectFor]
  | u :: vars, p :: objects, k + 1, hnodup, hv, ho => by
    obtain ⟨hu, hnodup⟩ := List.nodup_cons.1 hnodup
    have hv : vars[k]? = some v := by simpa using hv
    have hvu : v ≠ u := fun heq => hu (heq ▸ List.mem_of_getElem? hv)
    rw [objectFor_cons hvu]
    exact objectFor_getElem hnodup hv (by simpa using ho)

/-- A word with the object that stands for it.  A list stays as it is. -/
def objectTree (vars objects : List String) : Tree → Tree
  | .word w => .word (objectFor vars objects w)
  | .list ts => .list ts

/-- **Filling in the variables one after the other is filling them in at once**, if no object is a variable. -/
theorem fillItems_trees : ∀ {vars objects : List String} (ts : List Tree), objects.length = vars.length →
    (∀ o ∈ objects, o ∉ vars) →
    fillItems (vars.map .word) (objects.map .word) ts = .ok (ts.map (objectTree vars objects))
  | [], objects, ts, _, _ => by
    have hkept : objectTree [] objects = id := by
      funext t
      cases t <;> rfl
    rw [hkept, List.map_id]
    rfl
  | v :: vars, o :: objects, ts, hlength, hapart => by
    have hlength : objects.length = vars.length := by simpa using hlength
    have ho : o ∉ vars := fun hmem => hapart o List.mem_cons_self (List.mem_cons_of_mem v hmem)
    have hrest : ∀ p ∈ objects, p ∉ vars := fun p hp hmem =>
      hapart p (List.mem_cons_of_mem o hp) (List.mem_cons_of_mem v hmem)
    have hother : ∀ t : Tree, t ≠ .word v → objectTree vars objects t = objectTree (v :: vars) (o :: objects) t := by
      intro t ht
      cases t with
      | list ts => rfl
      | word w => exact congrArg Tree.word (objectFor_cons (fun heq => ht (congrArg Tree.word heq)) o vars objects).symm
    rw [List.map_cons, List.map_cons, fillItems]
    by_cases hv : .word v ∈ ts
    · have hov : ¬ (Tree.word o == .word v) = true := fun heq =>
        hapart o List.mem_cons_self (Tree.word.inj (beq_iff_eq.1 heq) ▸ List.mem_cons_self)
      rw [if_pos (List.contains_iff_mem.2 hv), if_neg hov, fillItems_trees _ hlength hrest, List.map_map]
      refine congrArg Except.ok (List.map_congr_left fun t _ => ?_)
      by_cases ht : t = .word v
      · subst ht
        have hfirst : objectFor (v :: vars) (o :: objects) v = o := by simp [objectFor]
        simp [objectTree, hfirst, objectFor_of_not_mem ho]
      · simp [ht, hother t ht]
    · rw [if_neg (mt List.contains_iff_mem.1 hv), List.tail_cons, fillItems_trees ts hlength hrest]
      exact congrArg Except.ok (List.map_congr_left fun t ht => hother t fun heq => hv (heq ▸ ht))

theorem map_objectTree_words (vars objects ws : List String) :
    (ws.map .word).map (objectTree vars objects) = (ws.map (objectFor vars objects)).map .word := by
  rw [List.map_map, List.map_map]
  rfl

theorem fillItems_names {vars objects : List String} (ws : List String) (hlength : objects.length = vars.length)
    (hapart : ∀ o ∈ objects, o ∉ vars) :
    fillItems (vars.map .word) (objects.map .word) (ws.map .word) = .ok (ws.map (.word ∘ objectFor vars objects)) := by
  rw [fillItems_trees _ hlength hapart, map_objectTree_words, List.map_map]

/-! ## Operators -/

section
variable {vars objects : List String} {x : String}

theorem matching_ofNames (hvars : vars.Nodup) :
    (ofNames vars objects).matching [x] = if x ∈ vars then [x] else [] := by
  have hfilter : vars.filter (· == x) = if x ∈ vars then [x] else [] := by
    rw [List.filter_beq, List.Nodup.count hvars]
    split <;> rfl
  rw [matching, List.flatMap_singleton, ofNames, List.filter_map, List.map_map]
  have hsame : (fun t => Tree.isWord t x) ∘ Tree.word = (· == x) := by
    funext w
    simp [Tree.isWord]
  rw [hsame, hfilter]
  split <;> rfl

theorem firstObject_ofNames (hlength : objects.length = vars.length) (hx : x ∈ vars) :
    (ofNames vars objects).firstObject = .ok (firstFor vars objects x) := by
  cases objects with
  | nil =>
    obtain rfl : vars = [] := List.length_eq_zero_iff.1 hlength.symm
    cases hx
  | cons o objects => simp [firstObject, ofNames, firstFor, hx]

theorem exchange_place {t u : Tree} {before : List Tree} (hbefore : t ∉ before) (after : List Tree) :
    exchange t u (before ++ t :: after) = .ok (before ++ u :: after) := by
  have hidx : (before ++ t :: after).idxOf t = before.length := by
    rw [List.idxOf_append, if_neg hbefore]
    simp
  rw [exchange, if_pos (by simp), hidx]
  simp

/-- What stands behind an operator is filled in if it is a list. -/
def fillNext (inner : Tree → Work Fluents Tree) : List Tree → Work Fluents (List Tree)
  | [] => Work.stop .missingItem
  | .word w :: after => pure (.word w :: after)
  | .list ts :: after => do return (← inner (.list ts)) :: after

theorem fillBehind_append (inner : Tree → Work Fluents Tree) (before : List Tree) (t : Tree) (behind : List Tree) :
    fillBehind inner before.length (before ++ t :: behind) =
      (fillNext inner behind >>= fun behind => pure (before ++ t :: behind)) := by
  have hbehind : (before ++ t :: behind)[before.length + 1]? = behind[0]? := by
    rw [List.getElem?_append_right (by omega), Nat.add_sub_cancel_left]
    rfl
  rw [fillBehind, hbehind]
  rcases behind with _ | ⟨_ | ts, after⟩
  · rfl
  · rfl
  · simp [fillNext]

theorem perform_fillBehind_word (inner : Tree → Work Fluents Tree) (before : List Tree) (t : Tree) (w : String)
    (after : List Tree) (l : Fluents) :
    (fillBehind inner before.length (before ++ t :: .word w :: after)).perform l =
      (.ok (before ++ t :: .word w :: after), l) := by
  rw [fillBehind_append]
  rfl

/-- **An operator of one agent receives the first object if its agent is a variable**, and stays as it is if not; then
what stands behind it is filled in. -/
theorem fillOperator_belief (hvars : vars.Nodup) (hlength : objects.length = vars.length)
    (hx : Source.IsTokenWord x) (inner : Tree → Work Fluents Tree) {before : List Tree}
    (hbefore : x ∈ vars → beliefWord x ∉ before) (after : List Tree) (l : Fluents) :
    ((ofNames vars objects).fillOperator inner (before ++ beliefWord x :: after) before.length).perform l =
      (fillBehind inner before.length (before ++ beliefWord (firstFor vars objects x) :: after)).perform l := by
  have hplace : (before ++ beliefWord x :: after)[before.length]? = some (beliefWord x) := by simp
  have hfill : (ofNames vars objects).fillBelief ("B(" ++ x ++ ",") (before ++ beliefWord x :: after) =
      .ok (before ++ beliefWord (firstFor vars objects x) :: after) := by
    rw [fillBelief_eq, insideOperator_beliefWord hx, matching_ofNames hvars]
    by_cases hmem : x ∈ vars
    · -- the operator does not stand before the place that was reached
      rw [if_pos hmem, List.foldlM_cons, firstObject_ofNames hlength hmem]
      exact except_bind_eq_ok.2 ⟨_, exchange_place (hbefore hmem) _, rfl⟩
    · rw [if_neg hmem, firstFor, if_neg hmem]
      rfl
  rw [fillOperator, hplace]
  simp only [hasBelief_beliefWord hx, if_true]
  show (Work.ofExcept (fillBelief _ ("B(" ++ x ++ ",") _) >>= fillBehind inner before.length).perform l = _
  rw [hfill, Work.perform_bind_ok (Work.perform_ofExcept _ l)]

theorem fillOperator_beliefWord (hvars : vars.Nodup) (hlength : objects.length = vars.length)
    (hx : Source.IsTokenWord x) (inner : Tree → Work Fluents Tree) {before : List Tree}
    (hbefore : x ∈ vars → beliefWord x ∉ before) (w : String) (after : List Tree) (l : Fluents) :
    ((ofNames vars objects).fillOperator inner (before ++ beliefWord x :: .word w :: after) before.length).perform l =
      (.ok (before ++ beliefWord (firstFor vars objects x) :: .word w :: after), l) := by
  rw [fillOperator_belief hvars hlength hx inner hbefore, perform_fillBehind_word]

theorem fillOperator_plain {σ : Assignment} {inner : Tree → Work Fluents Tree} {items : List Tree} {k : Nat} {t : Tree}
    (hk : items[k]? = some t) (ht : Literals.isOperator t = false) (l : Fluents) :
    (σ.fillOperator inner items k).perform l = (.ok items, l) := by
  have hkinds := Bool.or_eq_false_iff.1 ht
  rw [fillOperator, hk]
  simp only [hkinds.1, hkinds.2, Bool.false_eq_true, if_false]
  rfl

theorem firstFor_eq_or_mem (w : String) (vars objects : List String) :
    firstFor vars objects w = w ∨ firstFor vars objects w ∈ objects := by
  unfold firstFor
  by_cases hw : w ∈ vars
  · rw [if_pos hw]
    cases objects with
    | nil => exact .inl rfl
    | cons o objects => exact .inr List.mem_cons_self
  · rw [if_neg hw]
    exact .inl rfl

theorem firstFor_not_mem (hlength : objects.length = vars.length) (hapart : ∀ o ∈ objects, o ∉ vars) (w : String) :
    firstFor vars objects w ∉ vars := by
  unfold firstFor
  by_cases hw : w ∈ vars
  · rw [if_pos hw]
    cases objects with
    | nil =>
      obtain rfl : vars = [] := List.length_eq_zero_iff.1 hlength.symm
      cases hw
    | cons o objects => exact hapart o List.mem_cons_self
  · rw [if_neg hw]
    exact hw

/-- **Operators are filled in one after the other**, if each step keeps to its place and keeps what the next one asks of
the items before it. -/
theorem foldlM_fillOperator_each {α : Type} {σ : Assignment} {inner : Tree → Work Fluents Tree} {f g : α → Tree}
    {P : α → Prop} {I : List Tree → Prop} {l : Fluents} (hword : ∀ x, ∃ w, f x = .word w)
    (hstep : ∀ before x w after, I before → P x →
      (σ.fillOperator inner (before ++ f x :: .word w :: after) before.length).perform l =
        (.ok (before ++ g x :: .word w :: after), l))
    (hkeep : ∀ before x, I before → P x → I (before ++ [g x])) (w : String) (after : List Tree) (todo : List α) :
    ∀ before, I before → (∀ x ∈ todo, P x) →
      ((List.range' before.length todo.length).foldlM (σ.fillOperator inner)
        (before ++ (todo.map f ++ .word w :: after))).perform l =
        (.ok (before ++ (todo.map g ++ .word w :: after)), l) := by
  induction todo with
  | nil =>
    intro before _ _
    rfl
  | cons x todo ih =>
    intro before hI htodo
    obtain ⟨hx, htodo⟩ := List.forall_mem_cons.1 htodo
    obtain ⟨w', rest, hrest⟩ : ∃ w' rest, todo.map f ++ .word w :: after = .word w' :: rest := by
      cases todo with
      | nil => exact ⟨w, after, rfl⟩
      | cons y todo =>
        obtain ⟨w', hw'⟩ := hword y
        exact ⟨w', _, by rw [List.map_cons, List.cons_append, hw']⟩
    have hfirst := hstep before x w' rest hI hx
    have hnext := ih (before ++ [g x]) (hkeep before x hI hx) htodo
    rw [List.length_append, List.length_singleton] at hnext
    rw [List.length_cons, List.range'_succ, List.foldlM_cons, List.map_cons, List.cons_append, hrest,
      Work.perform_bind_ok hfirst, ← hrest]
    simpa using hnext

/-- **The operators of a nested belief receive the first object, one after the other.** -/
theorem foldlM_fillOperator_beliefs (hvars : vars.Nodup) (hlength : objects.length = vars.length)
    (hapart : ∀ o ∈ objects, o ∉ vars) (inner : Tree → Work Fluents Tree) (w : String) (after : List Tree) (l : Fluents)
    {agents : List String} (hagents : ∀ x ∈ agents, Source.IsTokenWord x) :
    ((List.range' 0 agents.length).foldlM ((ofNames vars objects).fillOperator inner)
      (agents.map beliefWord ++ .word w :: after)).perform l =
      (.ok ((agents.map (firstFor vars objects)).map beliefWord ++ .word w :: after), l) := by
  rw [List.map_map]
  -- an operator that was filled in has no variable for its agent
  refine foldlM_fillOperator_each (I := fun before => ∀ x ∈ vars, beliefWord x ∉ before) (fun x => ⟨_, rfl⟩)
    (fun before x w after hI hx => fillOperator_beliefWord hvars hlength hx inner (hI x) w after l)
    (fun before x hI _ y hy => ?_) w after agents [] (fun _ _ => List.not_mem_nil) hagents
  rw [List.mem_append, List.mem_singleton, not_or, beliefWord_inj]
  exact ⟨hI y hy, fun heq => firstFor_not_mem hlength hapart x (heq ▸ hy)⟩

theorem foldlM_fillOperator_plain {σ : Assignment} {inner : Tree → Work Fluents Tree} {items : List Tree}
    (l : Fluents) : ∀ places : List Nat, (∀ k ∈ places, ∃ t, items[k]? = some t ∧ Literals.isOperator t = false) →
      (places.foldlM (σ.fillOperator inner) items).perform l = (.ok items, l)
  | [], _ => rfl
  | k :: places, h => by
    obtain ⟨⟨t, hk, ht⟩, hrest⟩ := List.forall_mem_cons.1 h
    rw [List.foldlM_cons, Work.perform_bind_ok (fillOperator_plain hk ht l)]
    exact foldlM_fillOperator_plain l places hrest

/-- What is no operator is left for later, from a place on. -/
theorem foldlM_fillOperator_trees (σ : Assignment) (inner : Tree → Work Fluents Tree) {ts : List Tree}
    (hts : ∀ t ∈ ts, Literals.isOperator t = false) (before : List Tree) (l : Fluents) :
    ((List.range' before.length ts.length).foldlM (σ.fillOperator inner) (before ++ ts)).perform l =
      (.ok (before ++ ts), l) := by
  refine foldlM_fillOperator_plain l _ fun k hk => ?_
  obtain ⟨hle, hlt⟩ := List.mem_range'_1.1 hk
  have hin : k - before.length < ts.length := by omega
  refine ⟨ts[k - before.length], ?_, hts _ (List.getElem_mem hin)⟩
  rw [List.getElem?_append_right hle, List.getElem?_eq_getElem hin]

theorem foldlM_fillOperator_words (σ : Assignment) (inner : Tree → Work Fluents Tree) {ws : List String}
    (hws : ∀ w ∈ ws, Literals.isOperator (.word w) = false) (before : List Tree) (l : Fluents) :
    ((List.range' before.length ws.length).foldlM (σ.fillOperator inner) (before ++ ws.map .word)).perform l =
      (.ok (before ++ ws.map .word), l) := by
  have hrun := foldlM_fillOperator_trees σ inner (List.forall_mem_map.2 hws) before l
  rwa [List.length_map] at hrun

theorem foldlM_collapseOperator_of_forall {σ : Assignment} {items : List Tree} (places : List Nat)
    (h : ∀ k ∈ places, σ.collapseOperator items k = .ok items) :
    places.foldlM σ.collapseOperator items = .ok items := by
  induction places with
  | nil => rfl
  | cons k places ih =>
    obtain ⟨hk, hrest⟩ := List.forall_mem_cons.1 h
    rw [List.foldlM_cons, hk]
    exact ih hrest

theorem collapseOperator_plain {σ : Assignment} {items : List Tree} {k : Nat}
    (h : ∀ t, items[k]? = some t → t.hasCommonBelief = false) : σ.collapseOperator items k = .ok items := by
  unfold collapseOperator
  split
  · rfl
  · rename_i t ht
    rw [h t ht, if_neg (by decide)]

theorem foldlM_collapseOperator {σ : Assignment} {items : List Tree} (h : ∀ t ∈ items, t.hasCommonBelief = false)
    (places : List Nat) : places.foldlM σ.collapseOperator items = .ok items :=
  foldlM_collapseOperator_of_forall places fun _ _ => collapseOperator_plain fun t ht => h t (List.mem_of_getElem? ht)

end
end Assignment

/-! ## Nested beliefs -/

open Assignment (ofNames objectFor firstFor)

theorem MAp.exists_operator? {w : String} (h : Literals.isOperator (.word w) = true) :
    ∃ op, MAp.operator? (.word w) = .ok (some op) := by
  simp only [MAp.operator?]
  by_cases hcommon : (Tree.word w).hasCommonBelief = true
  · exact ⟨_, if_pos hcommon⟩
  · have hbelief := (Bool.or_eq_true_iff.1 h).resolve_right hcommon
    exact ⟨w, by rw [if_neg hcommon, if_pos hbelief]⟩

/-- What an operator can be printed before: something that can be printed and begins with a word, or a list that can be
printed. -/
def IsPrintedBehind (behind : List Tree) : Prop :=
  (∃ w after, behind = .word w :: after ∧ ∀ opened, ∃ text, MAp.formulaFrom 0 opened behind = .ok text) ∨
    ∃ ts, behind = [.list ts] ∧ ∃ text, MAp.formula (.list ts) = .ok text

/-- **An operator can be printed before what it can be printed before.** -/
theorem exists_formulaFrom_operator {w : String} (hw : Literals.isOperator (.word w) = true) {behind : List Tree}
    (h : IsPrintedBehind behind) (opened : Nat) : ∃ text, MAp.formulaFrom 0 opened (.word w :: behind) = .ok text := by
  obtain ⟨op, hop⟩ := MAp.exists_operator? hw
  rcases h with ⟨v, after, rfl, hprinted⟩ | ⟨ts, rfl, text, htext⟩
  · obtain ⟨text, htext⟩ := hprinted (opened + 1)
    rw [MAp.formulaFrom_before_word hop, htext]
    exact ⟨_, rfl⟩
  · -- the list is passed over if it has items, and shown if it has none
    have hbehind : MAp.behindOperator [.list ts] = .ok (text, ts.length) := by
      rw [MAp.behindOperator, MAp.enclosed, show MAp.formulaFrom 0 0 ts = .ok text from htext]
      rfl
    obtain ⟨rest, hrest⟩ : ∃ rest, MAp.formulaFrom ts.length (opened + 1) [.list ts] = .ok rest := by
      cases ts with
      | nil => exact ⟨_, rfl⟩
      | cons t ts => exact ⟨_, by rw [List.length_cons, MAp.formulaFrom, MAp.formulaFrom]⟩
    rw [MAp.formulaFrom, hop]
    simp only [hbehind, hrest]
    exact ⟨_, rfl⟩

theorem exists_formulaFrom_before {ops : List String} (hops : ∀ w ∈ ops, Literals.isOperator (.word w) = true)
    (hne : ops ≠ []) {behind : List Tree} (h : IsPrintedBehind behind) (opened : Nat) :
    ∃ text, MAp.formulaFrom 0 opened (ops.map .word ++ behind) = .ok text := by
  induction ops generalizing opened with
  | nil => exact absurd rfl hne
  | cons w ops ih =>
    obtain ⟨hw, hops⟩ := List.forall_mem_cons.1 hops
    refine exists_formulaFrom_operator hw ?_ opened
    cases ops with
    | nil => exact h
    | cons v ops => exact .inl ⟨v, _, rfl, ih hops (List.cons_ne_nil v ops)⟩

/-- **Operators before the words of an atom can be printed.** -/
theorem exists_formulaFrom_operators {args : List String} (hargs : args ≠ [])
    (hwords : ∀ w ∈ args, Literals.isOperator (.word w) = false) (ops : List String)
    (hops : ∀ w ∈ ops, Literals.isOperator (.word w) = true) :
    ∀ opened, ∃ text, MAp.formulaFrom 0 opened ((ops ++ args).map .word) = .ok text := by
  have hatom : ∀ opened, ∃ text, MAp.formulaFrom 0 opened (args.map .word) = .ok text :=
    fun opened => ⟨_, MAp.formulaFrom_words opened hwords⟩
  intro opened
  rw [List.map_append]
  by_cases hne : ops = []
  · rw [hne]
    exact hatom opened
  · obtain ⟨w, rest, rfl⟩ := List.exists_cons_of_ne_nil hargs
    exact exists_formulaFrom_before hops hne (.inl ⟨w, _, rfl, hatom⟩) opened

theorem perform_recordFluent {items : List Tree} {text : String} (h : MAp.formula (.list items) = .ok text)
    (l : Fluents) : (recordFluent items).perform l = (.ok (), if isFluentName text then text :: l else l) := by
  rw [recordFluent, h, Work.perform_bind_ok (Work.perform_ofExcept _ l)]
  by_cases hname : isFluentName text = true
  · rw [if_pos hname, if_pos hname]
    rfl
  · rw [if_neg hname, if_neg hname]
    rfl

/-- A formula that can be printed, where its name is asked for, is the last thing that filling in gives. -/
theorem exists_perform_recorded {recorded : Bool} {items : List Tree}
    (h : recorded = true → ∃ text, MAp.formula (.list items) = .ok text) (known : Fluents) :
    ∃ known', (do
      if recorded then
        recordFluent items
      return Tree.list items).perform known = (.ok (.list items), known') := by
  by_cases hrecorded : recorded = true
  · obtain ⟨text, htext⟩ := h hrecorded
    refine ⟨if isFluentName text then text :: known else known, ?_⟩
    simp only [if_pos hrecorded]
    exact (Work.perform_bind_ok (perform_recordFluent htext known)).trans rfl
  · refine ⟨known, ?_⟩
    simp only [if_neg hrecorded]
    rfl

section
variable {vars objects agents args : List String}

theorem items_nestedBelief (agents args : List String) :
    (nestedBelief agents args).items = (agents.map (fun x => "B(" ++ x ++ ",") ++ args).map .word := by
  simp [nestedBelief, Tree.items, beliefWord]

/-- The operators of a nested belief are no variables, so only its atom is filled in behind them. -/
theorem fillItems_nestedBelief (hlength : objects.length = vars.length) (hapart : ∀ o ∈ objects, o ∉ vars)
    (hvar : ∀ v ∈ vars, Source.IsTokenWord v) (agents args : List String) :
    Assignment.fillItems (vars.map .word) (objects.map .word) (nestedBelief agents args).items =
      .ok (nestedBelief agents (args.map (objectFor vars objects))).items := by
  have hkept : ∀ x, objectFor vars objects ("B(" ++ x ++ ",") = "B(" ++ x ++ "," := fun x =>
    Assignment.objectFor_of_not_mem fun hmem => (hvar _ hmem).parenthesis (by simp)
  rw [items_nestedBelief, items_nestedBelief, Assignment.fillItems_names _ hlength hapart]
  simp [hkept]

/-- **The operators of a nested belief receive the first object**, and its atom is left for later. -/
theorem foldlM_fillOperator_nestedBelief (hvars : vars.Nodup) (hlength : objects.length = vars.length)
    (hapart : ∀ o ∈ objects, o ∉ vars) (hagent : ∀ w ∈ agents, Source.IsTokenWord w)
    (harg : ∀ w ∈ args, Source.IsTokenWord w) (hargs : args ≠ []) (inner : Tree → Work Fluents Tree) (known : Fluents) :
    ((List.range (nestedBelief agents args).items.length).foldlM ((ofNames vars objects).fillOperator inner)
      (nestedBelief agents args).items).perform known =
      (.ok (nestedBelief (agents.map (firstFor vars objects)) args).items, known) := by
  have hrange : List.range (nestedBelief agents args).items.length =
      List.range' 0 agents.length ++ List.range' agents.length args.length := by
    rw [List.range_eq_range', nestedBelief, Tree.items, List.length_append, List.length_map, List.length_map]
    simp [← List.range'_append]
  obtain ⟨w, rest, rfl⟩ := List.exists_cons_of_ne_nil hargs
  have hrun : ((List.range' 0 agents.length).foldlM ((ofNames vars objects).fillOperator inner)
      (nestedBelief agents (w :: rest)).items).perform known =
      (.ok (nestedBelief (agents.map (firstFor vars objects)) (w :: rest)).items, known) :=
    Assignment.foldlM_fillOperator_beliefs hvars hlength hapart inner w (rest.map .word) known hagent
  have hatom := Assignment.foldlM_fillOperator_words (ofNames vars objects) inner
    (fun v hv => (harg v hv).isOperator_eq_false) ((agents.map (firstFor vars objects)).map beliefWord) known
  rw [List.length_map, List.length_map] at hatom
  rw [hrange, List.foldlM_append, Work.perform_bind_ok hrun]
  exact hatom

theorem hasCommonBelief_items_nestedBelief (hagent : ∀ w ∈ agents, Source.IsTokenWord w)
    (harg : ∀ w ∈ args, Source.IsTokenWord w) : ∀ t ∈ (nestedBelief agents args).items, t.hasCommonBelief = false := by
  intro t ht
  rcases List.mem_append.1 ht with ht | ht
  · obtain ⟨x, hx, rfl⟩ := List.mem_map.1 ht
    exact hasCommonBelief_beliefWord (hagent x hx)
  · obtain ⟨w, hw, rfl⟩ := List.mem_map.1 ht
    exact (Bool.or_eq_false_iff.1 (harg w hw).isOperator_eq_false).2

theorem exists_formula_nestedBelief (hagent : ∀ w ∈ agents, Source.IsTokenWord w)
    (harg : ∀ w ∈ args, Source.IsTokenWord w) (hargs : args ≠ []) :
    ∃ text, MAp.formula (.list (nestedBelief agents args).items) = .ok text := by
  rw [items_nestedBelief]
  refine exists_formulaFrom_operators hargs (fun w hw => (harg w hw).isOperator_eq_false) _ (fun w hw => ?_) 0
  obtain ⟨x, hx, rfl⟩ := List.mem_map.1 hw
  exact (isOperatorWord_beliefWord (hagent x hx)).isOperator

/-- **What a nested belief is filled in to.** -/
theorem perform_substitute_nestedBelief (hvars : vars.Nodup) (hlength : objects.length = vars.length)
    (hapart : ∀ o ∈ objects, o ∉ vars) (hwords : ∀ w ∈ vars ++ objects ++ agents ++ args, Source.IsTokenWord w)
    (hargs : args ≠ []) (recorded : Bool) (known : Fluents) :
    ∃ known', (substitute (ofNames vars objects) recorded (nestedBelief agents args)).perform known =
      (.ok (nestedBelief (agents.map (firstFor vars objects)) (args.map (objectFor vars objects))), known') := by
  simp only [List.mem_append, or_assoc] at hwords
  have hvar : ∀ w ∈ vars, Source.IsTokenWord w := fun w hw => hwords w (.inl hw)
  have hobject : ∀ w ∈ objects, Source.IsTokenWord w := fun w hw => hwords w (.inr (.inl hw))
  have hagent : ∀ w ∈ agents, Source.IsTokenWord w := fun w hw => hwords w (.inr (.inr (.inl hw)))
  have harg : ∀ w ∈ args, Source.IsTokenWord w := fun w hw => hwords w (.inr (.inr (.inr hw)))
  have hfirst : ∀ y ∈ agents.map (firstFor vars objects), Source.IsTokenWord y := by
    intro y hy
    obtain ⟨x, hx, rfl⟩ := List.mem_map.1 hy
    rcases Assignment.firstFor_eq_or_mem x vars objects with heq | hmem
    · rw [heq]
      exact hagent x hx
    · exact hobject _ hmem
  have hfilled : ∀ y ∈ args.map (objectFor vars objects), Source.IsTokenWord y :=
    Assignment.forall_mem_map_objectFor hobject harg
  rw [substitute, substituteWithin,
    Work.perform_bind_ok (foldlM_fillOperator_nestedBelief hvars hlength hapart hagent harg hargs _ known),
    Assignment.foldlM_collapseOperator (hasCommonBelief_items_nestedBelief hfirst harg),
    Work.perform_bind_ok (Work.perform_ofExcept _ known), ofNames, fillItems_nestedBelief hlength hapart hvar,
    Work.perform_bind_ok (Work.perform_ofExcept _ known)]
  have hprinted := exists_formula_nestedBelief hfirst hfilled (mt List.map_eq_nil_iff.1 hargs)
  exact exists_perform_recorded (fun _ => hprinted) known

end

/-- **The agent of an operator is filled in with the first object**, and a word with its own.  So a nested belief is
filled in with the same objects in its operators and in its atom exactly if every variable that is an agent of an
operator stands for the first object. -/
theorem substitute_nestedBelief_iff (vars objects agents args : List String) (hvars : vars.Nodup)
    (hlength : objects.length = vars.length) (hapart : ∀ o ∈ objects, o ∉ vars)
    (hwords : ∀ w ∈ vars ++ objects ++ agents ++ args, Source.IsTokenWord w) (hargs : args ≠ []) (recorded : Bool)
    (known : Fluents) :
    (∃ known', (substitute (ofNames vars objects) recorded (nestedBelief agents args)).perform known =
      (.ok (nestedBelief (agents.map (firstFor vars objects)) (args.map (objectFor vars objects))), known')) ∧
    ((∃ known', (substitute (ofNames vars objects) recorded (nestedBelief agents args)).perform known =
      (.ok (nestedBelief (agents.map (objectFor vars objects)) (args.map (objectFor vars objects))), known')) ↔
      ∀ x ∈ agents, ∀ (k : Nat) o, vars[k]? = some x → objects[k]? = some o → objects[0]? = some o) := by
  have hresult := perform_substitute_nestedBelief hvars hlength hapart hwords hargs recorded known
  refine ⟨hresult, ?_⟩
  obtain ⟨known', hresult⟩ := hresult
  constructor
  · rintro ⟨known'', hsame⟩ x hx k o hv ho
    rw [hresult] at hsame
    have htrees := Except.ok.inj (Prod.ext_iff.1 hsame).1
    have hbeliefs := (List.append_inj (Tree.list.inj htrees) (by simp)).1
    have hagents : firstFor vars objects x = objectFor vars objects x := by
      rw [List.map_map, List.map_map] at hbeliefs
      exact beliefWord_inj.1 (List.map_inj_left.1 hbeliefs x hx)
    rw [Assignment.objectFor_getElem hvars hv ho, firstFor, if_pos (List.mem_of_getElem? hv)] at hagents
    cases objects with
    | nil => simp at ho
    | cons p objects => exact congrArg some hagents
  · intro h
    have hagents : agents.map (firstFor vars objects) = agents.map (objectFor vars objects) := by
      refine List.map_congr_left fun x hx => ?_
      by_cases hmem : x ∈ vars
      · obtain ⟨k, hv⟩ := List.mem_iff_getElem?.1 hmem
        obtain ⟨hk, -⟩ := List.getElem?_eq_some_iff.1 hv
        have ho : objects[k]? = some (objects[k]) := List.getElem?_eq_getElem (hlength ▸ hk)
        rw [firstFor, if_pos hmem, Assignment.objectFor_getElem hvars hv ho, List.headD_eq_head?_getD,
          List.head?_eq_getElem?, h x hx k _ hv ho]
        rfl
      · rw [firstFor, if_neg hmem, Assignment.objectFor_of_not_mem hmem]
    exact ⟨known', hagents ▸ hresult⟩

/-- The signal of one agent to another: what the second one believes is filled in with the first one. -/
theorem substitute_nestedBelief_iff_signal :
    (∃ known, (substitute (ofNames ["?x", "?y"] ["a", "b"]) true (nestedBelief ["?y"] ["has", "?x", "?y"])).perform [] =
      (.ok (nestedBelief ["a"] ["has", "a", "b"]), known)) ∧
    ¬∃ known, (substitute (ofNames ["?x", "?y"] ["a", "b"]) true (nestedBelief ["?y"] ["has", "?x", "?y"])).perform [] =
      (.ok (nestedBelief ["b"] ["has", "a", "b"]), known) := by
  obtain ⟨hresult, hiff⟩ := substitute_nestedBelief_iff ["?x", "?y"] ["a", "b"] ["?y"] ["has", "?x", "?y"]
    (by decide) rfl (by decide) (by decide) (by decide) true []
  refine ⟨hresult, fun hsame => ?_⟩
  have hfirst := hiff.1 hsame "?y" (by decide) 1 "b" rfl rfl
  exact absurd hfirst (by decide)

end Epistemic
