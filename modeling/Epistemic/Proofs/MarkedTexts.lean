import Epistemic.Proofs.FormulaNames
import Epistemic.Proofs.RenamedVariables
import Epistemic.Proofs.Spelling
/-!
# Marks in the text of a condition

A condition on quantified agents is written with the variable marked, and then `$agent$` takes the place of the mark in
its text.  So `$agent$` stands where the variable stood first among the words of the condition (`Pdkb.onAgent_marked`),
and in all places of the variable exactly if it has no other (`Pdkb.firstText_eq_iff`).
-/
namespace Epistemic

open Source (IsPlainWord operatorName)
open Phrase (renamedIn)

/-! ## A mark in a text -/

namespace Text

theorem splitFirst?_of_not_mem {m : Char} {piece : List Char} : ∀ {cs : List Char}, m ∉ cs →
    splitFirst? (m :: piece) cs = none
  | [], _ => rfl
  | c :: cs, h => by
    rw [List.mem_cons, not_or] at h
    have hhead : (m :: piece).isPrefixOf (c :: cs) = false := by simp [List.isPrefixOf, h.1]
    rw [splitFirst?, hhead, if_neg Bool.false_ne_true, splitFirst?_of_not_mem h.2]
    rfl

theorem splitFirst?_append {m : Char} {piece rest : List Char} : ∀ {cs : List Char}, m ∉ cs →
    splitFirst? (m :: piece) (cs ++ (m :: piece ++ rest)) = some (cs, rest)
  | [], _ => by
    have hhead : (m :: piece).isPrefixOf (m :: (piece ++ rest)) = true := by
      rw [← List.cons_append, List.isPrefixOf_iff_prefix]
      exact List.prefix_append _ _
    rw [List.nil_append, List.cons_append, splitFirst?, if_pos hhead]
    simp
  | c :: cs, h => by
    rw [List.mem_cons, not_or] at h
    have hhead : (m :: piece).isPrefixOf (c :: (cs ++ (m :: piece ++ rest))) = false := by simp [List.isPrefixOf, h.1]
    rw [List.cons_append, splitFirst?, hhead, if_neg Bool.false_ne_true, splitFirst?_append h.2]
    rfl

theorem splitLast?_of_not_mem {m : Char} {piece : List Char} : ∀ {cs : List Char}, m ∉ cs →
    splitLast? (m :: piece) cs = none
  | [], _ => rfl
  | c :: cs, h => by
    rw [List.mem_cons, not_or] at h
    have hhead : (m :: piece).isPrefixOf (c :: cs) = false := by simp [List.isPrefixOf, h.1]
    rw [splitLast?, splitLast?_of_not_mem h.2]
    simp [hhead]

/-- A piece whose first letter does not come again is the last of its kind. -/
theorem splitLast?_append_of_not_mem {m : Char} {piece rest : List Char} (h : m ∉ piece ++ rest) : ∀ cs : List Char,
    splitLast? (m :: piece) (cs ++ (m :: piece ++ rest)) = some (cs, rest)
  | [] => by
    have hhead : (m :: piece).isPrefixOf (m :: (piece ++ rest)) = true := by
      rw [← List.cons_append, List.isPrefixOf_iff_prefix]
      exact List.prefix_append _ _
    rw [List.nil_append, List.cons_append, splitLast?, splitLast?_of_not_mem h]
    simp [hhead]
  | c :: cs => by rw [List.cons_append, splitLast?, splitLast?_append_of_not_mem h cs]

section
variable {inside : Char → Bool} {f : List Char → List Char} {m : Char} (hf : ∀ run, m ∉ run → f run = run)
include hf

theorem mapStretches_of_not_mem : ∀ {cs stretch : List Char}, m ∉ cs → m ∉ stretch →
    mapStretches inside f stretch cs = stretch.reverse ++ cs
  | [], stretch, _, hstretch => by rw [mapStretches, hf _ (by simpa using hstretch), List.append_nil]
  | c :: cs, stretch, hcs, hstretch => by
    rw [List.mem_cons, not_or] at hcs
    rw [mapStretches]
    split
    · rw [mapStretches_of_not_mem hcs.2 (by simp [hcs.1, hstretch])]
      simp
    · rw [hf _ (by simpa using hstretch), mapStretches_of_not_mem hcs.2 (by simp)]
      rfl

/-- What stands before a mark is kept. -/
theorem mapStretches_before {rest result : List Char}
    (hrest : ∀ stretch, m ∉ stretch → mapStretches inside f stretch rest = stretch.reverse ++ result) :
    ∀ {cs stretch : List Char}, m ∉ cs → m ∉ stretch →
      mapStretches inside f stretch (cs ++ rest) = stretch.reverse ++ (cs ++ result)
  | [], stretch, _, hstretch => hrest stretch hstretch
  | c :: cs, stretch, hcs, hstretch => by
    rw [List.mem_cons, not_or] at hcs
    rw [List.cons_append, mapStretches]
    split
    · rw [mapStretches_before hrest hcs.2 (by simp [hcs.1, hstretch])]
      simp
    · rw [hf _ (by simpa using hstretch), mapStretches_before hrest hcs.2 (by simp)]
      rfl

/-- What stands behind a mark is kept. -/
theorem mapStretches_behind {run result : List Char} (hrun : ∀ t, m ∉ t → f (run ++ t) = result ++ t) :
    ∀ {cs t : List Char}, m ∉ cs → m ∉ t → mapStretches inside f (run ++ t).reverse cs = result ++ (t ++ cs)
  | [], t, _, ht => by rw [mapStretches, List.reverse_reverse, hrun t ht, List.append_nil]
  | c :: cs, t, hcs, ht => by
    rw [List.mem_cons, not_or] at hcs
    rw [mapStretches]
    split
    · have hnext := mapStretches_behind hrun (t := t ++ [c]) hcs.2 (by simp [ht, hcs.1])
      rw [← List.append_assoc, List.reverse_append, List.reverse_singleton, List.singleton_append] at hnext
      rw [hnext]
      simp
    · rw [List.reverse_reverse, hrun t ht, mapStretches_of_not_mem hf hcs.2 (by simp)]
      simp

end

end Text

theorem marks_eq : "FASTART".toList = 'F' :: "ASTART".toList ∧ "FASTOP".toList = 'F' :: "ASTOP".toList := ⟨rfl, rfl⟩

theorem bracketed?_of_not_mem {run : List Char} (h : 'F' ∉ run) :
    Text.bracketed? "FASTART".toList "FASTOP".toList run = none := by
  rw [Text.bracketed?, marks_eq.1, Text.splitFirst?_of_not_mem h]
  rfl

theorem bracketed?_marked {u : String} (hne : u.toList ≠ []) {pre post : List Char} (hpre : 'F' ∉ pre)
    (hpost : 'F' ∉ post) :
    Text.bracketed? "FASTART".toList "FASTOP".toList (pre ++ (marked u).toList ++ post) =
      some (pre, u.toList, post) := by
  have hsplit : pre ++ (marked u).toList ++ post =
      pre ++ ("FASTART".toList ++ (u.toList ++ ("FASTOP".toList ++ post))) := by
    simp [marked, String.toList_append]
  have hfirst : Text.splitFirst? "FASTART".toList (pre ++ (marked u).toList ++ post) =
      some (pre, u.toList ++ ("FASTOP".toList ++ post)) := by
    rw [hsplit, marks_eq.1]
    exact Text.splitFirst?_append hpre
  have hlast : Text.splitLast? "FASTOP".toList (u.toList ++ ("FASTOP".toList ++ post)) = some (u.toList, post) := by
    rw [marks_eq.2]
    refine Text.splitLast?_append_of_not_mem ?_ u.toList
    rw [List.mem_append, not_or]
    exact ⟨by decide, hpost⟩
  rw [Text.bracketed?, hfirst]
  simp only [Option.bind_eq_bind, Option.bind_some, hlast]
  exact if_neg (by simpa using hne)

/-- **A mark in a text is filled in**, where no other letter `F` stands around it. -/
theorem fillMarks_marked {x u : String} {pre post : String} (hpre : 'F' ∉ pre.toList) (hpost : 'F' ∉ post.toList)
    (hne : u.toList ≠ []) (hu : ∀ c ∈ u.toList, Text.isBlank c = false) :
    fillMarks (fun _ => x.toList) (pre ++ marked u ++ post) = pre ++ x ++ post := by
  have hinside : ∀ c ∈ (marked u).toList, (!Text.isBlank c) = true := by
    intro c hc
    have hmarks : ("FASTART".toList ++ "FASTOP".toList).all (!Text.isBlank ·) = true := by decide
    rw [marked, String.toList_append, String.toList_append, List.mem_append, List.mem_append] at hc
    rcases hc with (hc | hc) | hc
    · exact List.all_eq_true.1 hmarks c (List.mem_append_left _ hc)
    · rw [hu c hc]
      rfl
    · exact List.all_eq_true.1 hmarks c (List.mem_append_right _ hc)
  refine String.toList_inj.1 ?_
  rw [fillMarks, String.toList_ofList, Text.replaceMarked, String.toList_append, String.toList_append,
    String.toList_append, String.toList_append, List.append_assoc, List.append_assoc]
  refine Text.mapStretches_before (m := 'F') (fun run hrun => ?_) (fun stretch hstretch => ?_) hpre List.not_mem_nil
  · simp only [bracketed?_of_not_mem hrun]
  · have hrun : (marked u).toList.reverse ++ stretch = (stretch.reverse ++ (marked u).toList ++ []).reverse := by simp
    have hresult : stretch.reverse ++ (x.toList ++ post.toList) =
        stretch.reverse ++ x.toList ++ ([] ++ post.toList) := by
      simp
    rw [Text.mapStretches_append_of_forall _ hinside, hrun, hresult]
    refine Text.mapStretches_behind (m := 'F') (fun run hrun => ?_) (fun t ht => ?_) hpost List.not_mem_nil
    · simp only [bracketed?_of_not_mem hrun]
    · rw [bracketed?_marked hne (by simpa using hstretch) ht]

theorem fillMarks_of_not_mem {new : List Char → List Char} {text : String} (h : 'F' ∉ text.toList) :
    fillMarks new text = text := by
  refine String.toList_inj.1 ?_
  rw [fillMarks, String.toList_ofList, Text.replaceMarked]
  refine Text.mapStretches_of_not_mem (m := 'F') (fun run hrun => ?_) h List.not_mem_nil
  simp only [bracketed?_of_not_mem hrun]

namespace Pdkb

/-! ## A word in the text of a belief -/

theorem intercalate_split (sep : String) (ws us : List String) : ∃ pre post : String, ∀ x,
    String.intercalate sep (ws ++ x :: us) = pre ++ x ++ post := by
  have hbehind : ∃ post : String, ∀ x, String.intercalate sep (x :: us) = x ++ post := by
    cases us with
    | nil => exact ⟨"", fun x => by simp⟩
    | cons u us =>
      refine ⟨sep ++ String.intercalate sep (u :: us), fun x => ?_⟩
      rw [String.intercalate_cons_cons, String.append_assoc]
  obtain ⟨post, hpost⟩ := hbehind
  induction ws with
  | nil => exact ⟨"", post, fun x => by rw [List.nil_append, hpost, String.empty_append]⟩
  | cons w ws ih =>
    obtain ⟨pre, post, hsplit⟩ := ih
    refine ⟨w ++ sep ++ pre, post, fun x => ?_⟩
    obtain ⟨v, vs, hrest⟩ : ∃ v vs, ws ++ x :: us = v :: vs := List.exists_cons_of_ne_nil (by simp)
    rw [List.cons_append, hrest, String.intercalate_cons_cons, ← hrest, hsplit]
    simp only [String.append_assoc]

/-- The text of a belief with one word left open. -/
theorem beliefText_split (operators : List (List String)) (ws us : List String) : ∃ pre post : String, ∀ x,
    beliefText operators (ws ++ x :: us) = pre ++ x ++ post := by
  obtain ⟨pre, post, hsplit⟩ := intercalate_split " " ws us
  unfold beliefText
  split
  · exact ⟨String.join (operators.map agentsText) ++ pre, post,
      fun x => by rw [hsplit]; simp only [String.append_assoc]⟩
  · exact ⟨String.join (operators.map agentsText) ++ ("(" ++ pre), post ++ ")", fun x => by
      rw [hsplit]; simp only [String.append_assoc]⟩

theorem set_idxOf_split {v : String} : ∀ {ws : List String}, v ∈ ws → ∃ pre post, ws = pre ++ v :: post ∧
    ∀ x, ws.set (ws.idxOf v) x = pre ++ x :: post
  | w :: ws, h => by
    by_cases hw : w = v
    · subst hw
      exact ⟨[], ws, rfl, fun x => by rw [List.idxOf_cons_self]; rfl⟩
    · obtain ⟨pre, post, hsplit, hset⟩ := set_idxOf_split ((List.mem_cons.1 h).resolve_left (Ne.symm hw))
      refine ⟨w :: pre, post, congrArg (w :: ·) hsplit, fun x => ?_⟩
      rw [List.idxOf_cons_ne _ hw, List.set_cons_succ, hset]
      rfl

theorem respelled_marked (v : String) : respelled (marked v) = marked (respelled v) := by
  have hmarks : respelled "FASTART" = "FASTART" ∧ respelled "FASTOP" = "FASTOP" := by decide
  rw [marked, respelled_append, respelled_append, hmarks.1, hmarks.2, marked]

theorem count_respelled {d : Char} (hd : d ≠ '-') (hmark : d ≠ '!') (w : String) :
    (respelled w).toList.count d = w.toList.count d := by
  rw [toList_respelled, List.count, List.countP_map]
  refine List.countP_congr fun c _ => ?_
  simp [signChar_eq_iff hd hmark]

/-! ## Conditions -/

/-- A condition as it is read: operators before the words of an atom. -/
def conditionTree (operators : List (List String)) (atom : List String) : Tree :=
  .list ((operators.map operatorName ++ atom).map .word)

/-- What is written for a condition in which `x` stands where the variable stood first among the words of the atom. -/
def firstText (v x : String) (operators : List (List String)) (atom : List String) : String :=
  beliefText (operators.map (List.map respelled)) ((atom.set (atom.idxOf v) x).map respelled)

/-- What is to be written for a condition: `x` in all places of the variable. -/
def renamedText (v x : String) (operators : List (List String)) (atom : List String) : String :=
  beliefText (operators.map fun as => (renamedIn v x as).map respelled) ((renamedIn v x atom).map respelled)

theorem tree_phrase (operators : List (List String)) (atom : List String) :
    (BeliefFormula.phrase operators atom).tree = conditionTree operators atom := by
  rw [Phrase.tree, BeliefFormula.items_phrase, conditionTree, List.map_append, List.map_map]
  rfl

theorem replaceFirst_phrase (v u : String) (operators : List (List String)) (atom : List String) :
    (BeliefFormula.phrase operators atom).replaceFirst v u =
      BeliefFormula.phrase operators (atom.set (atom.idxOf v) u) := by
  induction operators with
  | nil => rfl
  | cons as operators ih => exact congrArg (Phrase.believed as) ih

theorem markIfIn_conditionTree {v : String} (hv : '(' ∉ v.toList) (operators : List (List String))
    (atom : List String) :
    markIfIn (.word v) (conditionTree operators atom) =
      .ok (conditionTree operators (atom.set (atom.idxOf v) (marked v))) := by
  rw [← tree_phrase, Phrase.markIfIn_tree hv, replaceFirst_phrase, tree_phrase]

/-- No plain word has a letter of a mark. -/
theorem mark_not_mem_respelled {w : String} (h : IsPlainWord w) : 'F' ∉ (respelled w).toList := fun hm =>
  h.not_mem (by decide) ((mem_respelled (by decide) (by decide)).1 hm)

section
variable {v : String} {operators : List (List String)} {atom : List String} (hv : IsPlainWord v)
  (hoperators : ∀ as ∈ operators, ∀ a ∈ as, IsPlainWord a) (hne : atom ≠ []) (hatom : ∀ w ∈ atom, IsPlainWord w)
include hv hoperators hne hatom

theorem formula_marked : formula (conditionTree operators (atom.set (atom.idxOf v) (marked v))) =
    .ok (firstText v (marked v) operators atom) := by
  have hmark : '(' ∉ (marked v).toList := by
    rw [marked, String.toList_append, String.toList_append, List.mem_append, List.mem_append, not_or, not_or]
    exact ⟨⟨by decide, hv.not_mem (by decide)⟩, by decide⟩
  refine formula_belief (fun as has a ha => (hoperators as has a ha).not_mem (by decide))
    (mt (List.set_eq_nil_iff _ _).1 hne) fun w hw => ?_
  rcases List.mem_or_eq_of_mem_set hw with hw | rfl
  · exact (hatom w hw).not_mem (by decide)
  · exact hmark

/-- **`$agent$` stands where the variable stood first.** -/
theorem onAgent_marked : onAgent (conditionTree operators (atom.set (atom.idxOf v) (marked v))) =
    .ok (firstText v "$agent$" operators atom) := by
  have hclear : ∀ ws : List String, (∀ w ∈ ws, 'F' ∉ w.toList) →
      'F' ∉ (beliefText (operators.map (List.map respelled)) ws).toList := by
    intro ws hws
    rw [not_mem_beliefText (by decide), List.forall_mem_append]
    refine ⟨fun w hw => ?_, hws⟩
    rw [← List.map_flatten, List.mem_map] at hw
    obtain ⟨a, ha, rfl⟩ := hw
    obtain ⟨as, has, ha⟩ := List.mem_flatten.1 ha
    exact mark_not_mem_respelled (hoperators as has a ha)
  rw [onAgent, formula_marked hv hoperators hne hatom]
  refine congrArg Except.ok ?_
  by_cases hmem : v ∈ atom
  · obtain ⟨ws, us, hsplit, hset⟩ := set_idxOf_split hmem
    obtain ⟨pre, post, htext⟩ :=
      beliefText_split (operators.map (List.map respelled)) (ws.map respelled) (us.map respelled)
    have hfirst : ∀ x, firstText v x operators atom = pre ++ respelled x ++ post := by
      intro x
      rw [firstText, hset, List.map_append, List.map_cons, htext]
    -- with nothing in its place there is no letter of a mark
    have hnone : 'F' ∉ (pre ++ "" ++ post).toList := by
      rw [← htext]
      refine hclear _ fun w hw => ?_
      rw [List.mem_append, List.mem_cons] at hw
      rcases hw with hw | rfl | hw
      · obtain ⟨u, hu, rfl⟩ := List.mem_map.1 hw
        exact mark_not_mem_respelled (hatom u (by simp [hsplit, hu]))
      · decide
      · obtain ⟨u, hu, rfl⟩ := List.mem_map.1 hw
        exact mark_not_mem_respelled (hatom u (by simp [hsplit, hu]))
    rw [String.append_empty, String.toList_append, List.mem_append, not_or] at hnone
    have hplain : respelled "$agent$" = "$agent$" := by decide
    rw [hfirst, hfirst, hplain, respelled_marked]
    refine fillMarks_marked (x := "$agent$") hnone.1 hnone.2 ?_ fun c hc => ?_
    · rw [toList_respelled]
      exact mt List.map_eq_nil_iff.1 hv.1
    · rw [toList_respelled] at hc
      obtain ⟨b, hb, rfl⟩ := List.mem_map.1 hc
      unfold signChar
      split
      · decide
      · exact (Source.isWordChar_iff.1 (hv.2 b hb)).1
  · -- no word of the atom is marked
    have hsame : ∀ x, atom.set (atom.idxOf v) x = atom := fun x => by
      rw [List.idxOf_eq_length hmem, List.set_eq_of_length_le (Nat.le_refl _)]
    rw [firstText, firstText, hsame, hsame]
    refine fillMarks_of_not_mem (hclear _ fun w hw => ?_)
    obtain ⟨u, hu, rfl⟩ := List.mem_map.1 hw
    exact mark_not_mem_respelled (hatom u hu)

end

/-- **`$agent$` stands in all places of the variable exactly if it has no other.** -/
theorem firstText_eq_iff {v : String} (hquestion : '?' ∈ v.toList) (operators : List (List String))
    (atom : List String) : firstText v "$agent$" operators atom = renamedText v "$agent$" operators atom ↔
      v ∉ operators.flatten ∧ atom.count v ≤ 1 := by
  have hv : (respelled v).toList.count '?' = v.toList.count '?' := count_respelled (by decide) (by decide) v
  have hagent : '?' ∉ (respelled "$agent$").toList := by decide
  have hpos : 0 < v.toList.count '?' := List.count_pos_iff.2 hquestion
  have hrenamed : (operators.map fun as => (renamedIn v "$agent$" as).map respelled).flatten =
      (renamedIn v "$agent$" operators.flatten).map respelled := by
    rw [renamedIn, List.map_flatten, List.map_flatten, List.map_map]
    rfl
  constructor
  · intro h
    -- the question marks that are left are those of the other places
    have hcount := congrArg (·.toList.count '?') h
    simp only [firstText, renamedText] at hcount
    rw [count_beliefText (by decide), count_beliefText (by decide), lettersIn_append, lettersIn_append,
      ← List.map_flatten, hrenamed, Phrase.lettersIn_map_renamedIn hv hagent operators.flatten,
      Phrase.lettersIn_strays hv hagent atom] at hcount
    have hflat : operators.flatten.count v * v.toList.count '?' = 0 := by omega
    have hatom : (atom.count v - 1) * v.toList.count '?' = 0 := by omega
    refine ⟨List.count_eq_zero.1 ((Nat.mul_eq_zero.1 hflat).resolve_right hpos.ne'), ?_⟩
    have hone := (Nat.mul_eq_zero.1 hatom).resolve_right hpos.ne'
    omega
  · rintro ⟨hflat, hatom⟩
    have hkept : ∀ as ∈ operators, renamedIn v "$agent$" as = as := fun as has =>
      Phrase.renamedIn_of_not_mem (List.count_eq_zero.2 fun hm => hflat (List.mem_flatten.2 ⟨as, has, hm⟩))
    rw [firstText, renamedText, Phrase.set_idxOf_eq_renamedIn (by omega),
      List.map_congr_left fun as has => congrArg (List.map respelled) (hkept as has)]

end Pdkb
end Epistemic
