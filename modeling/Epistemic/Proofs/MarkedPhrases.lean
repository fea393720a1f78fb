import Epistemic.Effect.Quantified
import Epistemic.Proofs.GroundPhrases
/-!
# Marks in beliefs

The variable of a quantifier is marked where it stands first among the words of a belief, and an agent takes the place
of what is marked when its statement is printed.  Objects are put in place of variables in between, and do not touch the
mark.  So the agent stands in the end where the variable stood first (`Phrase.fillConditions_marked`).
-/
namespace Epistemic

open Source (IsPlainWord operatorName)
open Assignment (ofNames objectFor)

/-! ## Filling in a mark -/

namespace Text

theorem templateUnits_of_not_mem : ∀ {cs : List Char}, '\\' ∉ cs → templateUnits cs = cs.map .plain
  | [], _ => rfl
  | c :: cs, h => by
    rw [List.mem_cons, not_or] at h
    rw [templateUnits, templateUnits_of_not_mem h.2, List.map_cons]
    · exact fun heq _ => h.1 heq.symm
    · exact fun _ _ heq _ => h.1 heq.symm

theorem templateFrom_plain : ∀ cs : List Char, templateFrom 0 (cs.map .plain) = .ok (cs.map .char)
  | [] => rfl
  | c :: cs => by
    rw [List.map_cons, templateFrom, templateFrom_plain cs]
    rfl

/-- A text without a backslash is a template of itself. -/
theorem fillIn_template {cs : List Char} (h : '\\' ∉ cs) :
    ∃ parts, template cs = .ok parts ∧ ∀ old, fillIn parts old = cs := by
  refine ⟨cs.map .char, ?_, fun old => ?_⟩
  · rw [template, templateUnits_of_not_mem h, templateFrom_plain]
  · rw [fillIn, List.flatMap_map]
    exact List.flatMap_singleton' cs

theorem splitLast?_append {piece : List Char} (h : splitLast? piece piece = some ([], [])) : ∀ cs : List Char,
    splitLast? piece (cs ++ piece) = some (cs, [])
  | [] => h
  | c :: cs => by rw [List.cons_append, splitLast?, splitLast?_append h cs]

end Text

theorem fillWord_marked {v x : String} (hv : IsPlainWord v) (hx : '\\' ∉ x.toList) :
    fillWord x (.word (marked v)) = .ok (.word x) := by
  obtain ⟨parts, hparts, hfill⟩ := Text.fillIn_template hx
  have hblank : ∀ c ∈ (marked v).toList, (!Text.isBlank c) = true := by
    intro c hc
    have hmarks : ("FASTART".toList ++ "FASTOP".toList).all (!Text.isBlank ·) = true := by decide
    rw [marked, String.toList_append, String.toList_append, List.mem_append, List.mem_append] at hc
    rcases hc with (hc | hc) | hc
    · exact List.all_eq_true.1 hmarks c (List.mem_append_left _ hc)
    · rw [(Source.isWordChar_iff.1 (hv.2 c hc)).1]
      rfl
    · exact List.all_eq_true.1 hmarks c (List.mem_append_right _ hc)
  have hinside : Text.bracketed? "FASTART".toList "FASTOP".toList (marked v).toList = some ([], v.toList, []) := by
    have hfirst : Text.splitFirst? "FASTART".toList (marked v).toList = some ([], v.toList ++ "FASTOP".toList) := by
      rw [marked, String.append_assoc, String.toList_append, String.toList_append]
      rfl
    have hlast : Text.splitLast? "FASTOP".toList (v.toList ++ "FASTOP".toList) = some (v.toList, []) :=
      Text.splitLast?_append (by decide) v.toList
    rw [Text.bracketed?, hfirst]
    simp only [Option.bind_eq_bind, Option.bind_some, hlast]
    exact if_neg (by simpa using hv.1)
  have hmarks : fillMarks (Text.fillIn parts) (marked v) = x := by
    rw [fillMarks, Text.replaceMarked, Text.mapStretches_of_forall hblank, List.reverse_nil, List.nil_append, hinside]
    simp only [hfill, List.nil_append, List.append_nil, String.ofList_toList]
  simp only [fillWord, hparts, hmarks]

/-- An item of a condition with the agent in place of what is marked. -/
def unmarked (x : String) (t : Tree) : Tree := if isMarked t then .word x else t

/-- What becomes of an item when an agent is filled in.  What was filled in stays as it is if it is filled in again. -/
structure FilledBy (x : String) (f : Tree → Tree) (t : Tree) : Prop where
  marked : isMarked t = true → fillWord x t = .ok (f t)
  unmarked : isMarked t = false → f t = t
  again : f (f t) = f t

theorem filledBy_unmarked {x : String} (hx : isMarked (.word x) = false) {t : Tree}
    (ht : isMarked t = true → fillWord x t = .ok (.word x)) : FilledBy x (unmarked x) t where
  marked hmarked := by rw [ht hmarked, unmarked, if_pos hmarked]
  unmarked hplain := if_neg (by simp [hplain])
  again := by
    by_cases hmarked : isMarked t = true
    · rw [unmarked.eq_1 x t, if_pos hmarked]
      exact if_neg (by simp [hx])
    · rw [unmarked.eq_1 x t, if_neg hmarked]
      exact if_neg hmarked

theorem set_idxOf_self (t : Tree) (ts : List Tree) : ts.set (ts.idxOf t) t = ts := by
  induction ts with
  | nil => rfl
  | cons u ts ih =>
    rw [List.idxOf_cons]
    by_cases h : u = t
    · rw [h, beq_self_eq_true, cond_true, List.set_cons_zero]
    · rw [beq_false_of_ne h, cond_false, List.set_cons_succ, ih]

section
variable {x : String} {f : Tree → Tree} {pre post : List Tree}

/-- **One place of one condition is filled in**, if what stands before it is filled in already. -/
theorem fillAt_place (hpre : ∀ c ∈ pre, ∀ t ∈ c.items, f t = t) {done : List Tree} (hdone : ∀ t ∈ done, f t = t)
    {t : Tree} (ht : FilledBy x f t) (todo : List Tree) :
    fillAt x pre.length done.length (pre ++ .list (done ++ t :: todo) :: post) =
      .ok (pre ++ .list (done ++ f t :: todo) :: post) := by
  have hcondition : (pre ++ .list (done ++ t :: todo) :: post)[pre.length]? = some (.list (done ++ t :: todo)) := by
    simp
  have hplace : (Tree.list (done ++ t :: todo)).items[done.length]? = some t := by simp [Tree.items]
  simp only [fillAt, hcondition, hplace]
  by_cases hsame : f t = t
  · -- the first that is the same may be another, but nothing is changed there
    split
    · rw [ht.marked ‹_›, hsame]
      simp only [Except.map, set_idxOf_self, Tree.items]
    · rw [hsame]
  · -- the first condition that is the same, and the first item of it, are those of the place
    have hmarked : isMarked t = true := by
      by_contra hplain
      exact hsame (ht.unmarked (Bool.eq_false_iff.2 hplain))
    have hfirst : (pre ++ Tree.list (done ++ t :: todo) :: post).idxOf (.list (done ++ t :: todo)) = pre.length := by
      have hnot : Tree.list (done ++ t :: todo) ∉ pre := fun hmem => hsame (hpre _ hmem t (by simp [Tree.items]))
      rw [List.idxOf_append, if_neg hnot]
      simp
    have hitem : (Tree.list (done ++ t :: todo)).items.idxOf t = done.length := by
      have hnot : t ∉ done := fun hmem => hsame (hdone t hmem)
      rw [Tree.items, List.idxOf_append, if_neg hnot]
      simp
    rw [if_pos hmarked, ht.marked hmarked, hfirst, hitem]
    simp [Except.map, Tree.items]

theorem foldlM_fillAt (hpre : ∀ c ∈ pre, ∀ t ∈ c.items, f t = t) : ∀ (todo done : List Tree),
    (∀ t ∈ done, f t = t) → (∀ t ∈ todo, FilledBy x f t) →
    (List.range' done.length todo.length).foldlM (fun cs place => fillAt x pre.length place cs)
      (pre ++ .list (done ++ todo) :: post) = .ok (pre ++ .list (done ++ todo.map f) :: post) := by
  intro todo
  induction todo with
  | nil =>
    intro done _ _
    rfl
  | cons t todo ih =>
    intro done hdone htodo
    obtain ⟨ht, htodo⟩ := List.forall_mem_cons.1 htodo
    have hrest := ih (done ++ [f t]) (List.forall_mem_append.2 ⟨hdone, List.forall_mem_singleton.2 ht.again⟩) htodo
    rw [List.length_append, List.length_singleton, List.append_assoc, List.append_assoc] at hrest
    rw [List.length_cons, List.range'_succ, List.foldlM_cons, fillAt_place hpre hdone ht]
    exact hrest

theorem fillCondition_place (hpre : ∀ c ∈ pre, ∀ t ∈ c.items, f t = t) {ts : List Tree}
    (hts : ∀ t ∈ ts, FilledBy x f t) :
    fillCondition x (pre ++ .list ts :: post) pre.length = .ok (pre ++ .list (ts.map f) :: post) := by
  have hlength : ((pre ++ Tree.list ts :: post)[pre.length]?.map (·.items.length)).getD 0 = ts.length := by
    simp [Tree.items]
  rw [fillCondition, hlength, List.range_eq_range']
  exact foldlM_fillAt hpre ts [] (fun t ht => by cases ht) hts

/-- **All conditions are filled in**, each item at its own place. -/
theorem fillConditions_lists (css : List (List Tree)) (hcss : ∀ ts ∈ css, ∀ t ∈ ts, FilledBy x f t) :
    fillConditions x (css.map .list) = .ok (css.map fun ts => .list (ts.map f)) := by
  have hloop : ∀ (todo : List (List Tree)) (pre : List Tree), (∀ c ∈ pre, ∀ t ∈ c.items, f t = t) →
      (∀ ts ∈ todo, ∀ t ∈ ts, FilledBy x f t) →
      (List.range' pre.length todo.length).foldlM (fillCondition x) (pre ++ todo.map .list) =
        .ok (pre ++ todo.map fun ts => .list (ts.map f)) := by
    intro todo
    -- what has been passed is filled in, so the next condition is found at its own place if it is to change
    induction todo with
    | nil =>
      intro pre _ _
      rfl
    | cons ts todo ih =>
      intro pre hpre htodo
      obtain ⟨hts, htodo⟩ := List.forall_mem_cons.1 htodo
      have hrest := ih (pre ++ [.list (ts.map f)]) (List.forall_mem_append.2 ⟨hpre,
        List.forall_mem_singleton.2 fun t ht => by
          obtain ⟨u, hu, rfl⟩ := List.mem_map.1 ht
          exact (hts u hu).again⟩) htodo
      rw [List.length_append, List.length_singleton, List.append_assoc, List.append_assoc] at hrest
      rw [List.length_cons, List.range'_succ, List.foldlM_cons, List.map_cons, fillCondition_place hpre hts]
      exact hrest
  rw [fillConditions, List.length_map, List.range_eq_range']
  exact hloop css [] (fun c hc => by cases hc) hcss

end

/-! ## Beliefs with a mark -/

theorem isMarked_word {w : String} (h : 'F' ∉ w.toList) : isMarked (.word w) = false :=
  Bool.eq_false_iff.2 fun hmarked => h (Text.mem_of_occurs (by decide) hmarked)

theorem isMarked_marked (v : String) : isMarked (.word (marked v)) = true := by
  rw [isMarked, Tree.mentions, marked, String.append_assoc, String.toList_append]
  rfl

theorem mark_mem_marked (v : String) : 'F' ∈ (marked v).toList := by
  rw [marked, String.append_assoc, String.toList_append]
  simp

theorem mark_not_mem_operatorName {as : List String} (has : ∀ a ∈ as, IsPlainWord a) :
    'F' ∉ (operatorName as).toList := by
  have hagents : 'F' ∉ [','].intercalate (as.map String.toList) :=
    Source.not_mem_intercalate_toList (by decide) fun a ha => (has a ha).not_mem (by decide)
  rw [toList_operatorName]
  split <;> simp [hagents]

/-- A text in the letters of words, which may be empty. -/
def IsSpelledOut (w : String) : Prop := ∀ c ∈ w.toList, Source.isWordChar c = true

theorem IsSpelledOut.not_mem {w : String} (h : IsSpelledOut w) {d : Char} (hd : Source.isWordChar d = false) :
    d ∉ w.toList := by
  intro hmem
  rw [h d hmem] at hd
  cases hd

namespace Phrase

/-- A belief with another word where one stands first among its own words. -/
def replaceFirst (v u : String) : Phrase → Phrase
  | atom ws => atom (ws.set (ws.idxOf v) u)
  | believed as φ => believed as (φ.replaceFirst v u)
  | enclosed as φ => enclosed as φ

theorem Each.replaceFirst {word : String → Prop} {group : List String → Prop} {φ : Phrase} (h : φ.Each word group)
    {u : String} (hu : word u) (v : String) : (φ.replaceFirst v u).Each word group := by
  induction φ with
  | atom ws =>
    refine ⟨mt (List.set_eq_nil_iff _ _).1 h.1, fun w hw => ?_⟩
    rcases List.mem_or_eq_of_mem_set hw with hw | rfl
    · exact h.2 w hw
    · exact hu
  | believed as φ ih => exact ⟨h.1, ih h.2⟩
  | enclosed as φ _ => exact h

/-- A belief in the letters of words, whose operators are settled. -/
def IsSpelled (vars objects : List String) (φ : Phrase) : Prop := φ.Each IsSpelledOut (SettledOperator vars objects)

theorem IsSpelled.isSettled {vars objects : List String} {φ : Phrase} (h : φ.IsSpelled vars objects) :
    φ.IsSettled vars objects := Each.imp h (fun _ hw => hw.not_mem (by decide)) fun _ hop => hop

theorem items_replaceFirst {v : String} (hv : '(' ∉ v.toList) (u : String) (φ : Phrase) :
    (φ.replaceFirst v u).items = φ.items.set (φ.items.idxOf (.word v)) (.word u) := by
  have hoperator : ∀ as, (operatorTree as == Tree.word v) = false := by
    intro as
    refine beq_false_of_ne fun heq => hv ?_
    rw [← Tree.word.inj heq]
    exact MAp.parenthesis_mem_operatorName as
  induction φ with
  | atom ws =>
    have hidx : (ws.map Tree.word).idxOf (.word v) = ws.idxOf v := by
      induction ws with
      | nil => rfl
      | cons w ws ih =>
        have hsame : (Tree.word w == Tree.word v) = (w == v) := by
          rw [Bool.eq_iff_iff, beq_iff_eq, beq_iff_eq, Tree.word.injEq]
        rw [List.map_cons, List.idxOf_cons, List.idxOf_cons, hsame, ih]
    rw [replaceFirst, items, items, List.map_set, hidx]
  | believed as φ ih =>
    rw [replaceFirst, items, items, ih, List.idxOf_cons, hoperator as]
    rfl
  | enclosed as φ _ =>
    rw [replaceFirst, items, List.idxOf_cons, hoperator as]
    rfl

/-- **A variable is marked where it stands first among the words of a belief.** -/
theorem markIfIn_tree {v : String} (hv : '(' ∉ v.toList) (φ : Phrase) :
    markIfIn (.word v) φ.tree = .ok (φ.replaceFirst v (marked v)).tree := by
  rw [tree, tree, items_replaceFirst hv, markIfIn, standsIn]
  by_cases hmem : .word v ∈ φ.items
  · rw [List.contains_iff_mem.2 hmem]
    rfl
  · rw [Bool.eq_false_iff.2 (mt List.contains_iff_mem.1 hmem), List.idxOf_eq_length hmem,
      List.set_eq_of_length_le (Nat.le_refl _)]

theorem markEach_trees {v : String} (hv : '(' ∉ v.toList) : ∀ φs : List Phrase,
    markEach (.word v) (φs.map tree) = .ok ((φs.map (replaceFirst v (marked v))).map tree)
  | [] => rfl
  | φ :: φs => by
    rw [List.map_cons, markEach, markIfIn_tree hv, markEach_trees hv φs]
    rfl

section
variable {vars objects : List String} (h : ObjectsFor vars objects) {v x : String}

theorem isMarked_tree {φ : Phrase} {group : List String → Prop} (hφ : φ.Each IsSpelledOut group) :
    isMarked φ.tree = false := by
  refine Bool.eq_false_iff.2 fun hmarked => ?_
  have hmem : .word "FASTART" ∈ φ.items := List.contains_iff_mem.1 hmarked
  have hoperator : ∀ as, Tree.word "FASTART" ≠ operatorTree as := by
    intro as heq
    have hparen := MAp.parenthesis_mem_operatorName as
    rw [← Tree.word.inj heq] at hparen
    exact absurd hparen (by decide)
  induction φ with
  | atom ws =>
    obtain ⟨w, hw, heq⟩ := List.mem_map.1 hmem
    cases heq
    exact (hφ.2 _ hw).not_mem (d := 'F') (by decide) (by decide)
  | believed as φ ih =>
    have hrest := (List.mem_cons.1 hmem).resolve_left (hoperator as)
    exact ih hφ.2 (List.contains_iff_mem.2 hrest) hrest
  | enclosed as φ _ => simp [items, hoperator as] at hmem

include h in
/-- **The agent takes the place of the mark**, and only there. -/
theorem map_unmarked_items (hx : x ∉ vars) {φ : Phrase} (hφ : φ.IsSpelled vars objects) :
    (((φ.replaceFirst v (marked v)).filled vars objects).items.map (unmarked x) =
      ((φ.replaceFirst v x).filled vars objects).items) ∧
    ∀ t ∈ ((φ.replaceFirst v (marked v)).filled vars objects).items, isMarked t = true → t = .word (marked v) := by
  have hobjects : ∀ o ∈ objects, IsSpelledOut o := fun o ho => (h.agent o ho).1.2
  have hmark : objectFor vars objects (marked v) = marked v := Assignment.objectFor_of_not_mem fun hmem =>
    (h.plain _ hmem).not_mem (by decide) (mark_mem_marked v)
  have hoperator : ∀ {as}, SettledOperator vars objects as →
      isMarked (operatorTree (filledAgents vars objects as)) = false := fun hop =>
    isMarked_word (mark_not_mem_operatorName fun a ha => ((hop.filled h).1.agents a ha).1)
  induction φ with
  | atom ws =>
    have hplain : ∀ w ∈ ws, isMarked (.word (objectFor vars objects w)) = false := fun w hw =>
      isMarked_word (((Each.filled h hφ hobjects).2 _ (List.mem_map.2 ⟨w, hw, rfl⟩)).not_mem (by decide))
    constructor
    · simp only [replaceFirst, Phrase.filled, items, List.map_set, List.map_map]
      have hwords : ws.map (unmarked x ∘ Tree.word ∘ objectFor vars objects) =
          ws.map (Tree.word ∘ objectFor vars objects) :=
        List.map_congr_left fun w hw => if_neg (by simp [hplain w hw])
      have hagent : objectFor vars objects x = x := Assignment.objectFor_of_not_mem hx
      rw [hwords, hmark, hagent, unmarked, if_pos (isMarked_marked v)]
    · intro t ht hmarked
      simp only [replaceFirst, Phrase.filled, items, List.map_set, List.map_map, hmark] at ht
      rcases List.mem_or_eq_of_mem_set ht with ht | rfl
      · obtain ⟨w, hw, rfl⟩ := List.mem_map.1 ht
        rw [Function.comp_apply, hplain w hw] at hmarked
        cases hmarked
      · rfl
  | believed as φ ih =>
    obtain ⟨hmap, hmem⟩ := ih hφ.2
    refine ⟨?_, List.forall_mem_cons.2 ⟨fun hmarked => ?_, hmem⟩⟩
    · simp only [replaceFirst, Phrase.filled, items, List.map_cons, hmap, unmarked, hoperator hφ.1, Bool.false_eq_true,
        if_false]
    · rw [hoperator hφ.1] at hmarked
      cases hmarked
  | enclosed as φ _ =>
    have hlist : isMarked (.list (φ.filled vars objects).items) = false := isMarked_tree (Each.filled h hφ.2 hobjects)
    refine ⟨?_, ?_⟩
    · simp only [replaceFirst, Phrase.filled, items, List.map_cons, List.map_nil, unmarked, hoperator hφ.1, hlist,
        Bool.false_eq_true, if_false]
    · intro t ht hmarked
      simp only [replaceFirst, Phrase.filled, items, List.mem_cons, List.not_mem_nil, or_false] at ht
      rcases ht with rfl | rfl
      · rw [hoperator hφ.1] at hmarked
        cases hmarked
      · rw [hlist] at hmarked
        cases hmarked

include h in
/-- **Ground conditions in which a variable was marked are filled in with the agent where the variable stood first.** -/
theorem fillConditions_marked (hv : IsPlainWord v) (hx : IsPlainWord x) (hvar : x ∉ vars) (hbackslash : '\\' ∉ x.toList)
    {φs : List Phrase} (hφs : ∀ φ ∈ φs, φ.IsSpelled vars objects) :
    fillConditions x (((φs.map (replaceFirst v (marked v))).map (Phrase.filled vars objects)).map tree) =
      .ok (((φs.map (replaceFirst v x)).map (Phrase.filled vars objects)).map tree) := by
  have hlists := fillConditions_lists (f := unmarked x)
    (φs.map fun φ => ((φ.replaceFirst v (marked v)).filled vars objects).items) (by
      intro ts hts t ht
      obtain ⟨φ, hφ, rfl⟩ := List.mem_map.1 hts
      refine filledBy_unmarked (isMarked_word (hx.not_mem (by decide))) fun hmarked => ?_
      rw [(map_unmarked_items h hvar (hφs φ hφ)).2 t ht hmarked]
      exact fillWord_marked hv hbackslash)
  simp only [List.map_map] at hlists ⊢
  refine hlists.trans (congrArg Except.ok (List.map_congr_left fun φ hφ => ?_))
  exact congrArg Tree.list (map_unmarked_items h hvar (hφs φ hφ)).1

end
end Phrase
end Epistemic
