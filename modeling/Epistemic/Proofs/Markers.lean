import Epistemic.Proofs.ClearedGuards
import Epistemic.Proofs.Letters
import Epistemic.Proofs.MarkedPhrases
import Epistemic.Proofs.Statements
/-!
# Markers in conditions

A marker is replaced by an agent wherever it stands in the words of a condition, from the left and as far as it reaches
(`Text.replaced_iff`).  A word that was filled in is written at the first place where an equal one stands, in the first
condition that is equal.  That is the right place for every condition if and only if the agent leaves nothing behind
that is a marker again (`fillConditions_words_iff`).
-/
namespace Epistemic

/-! ## Replacing markers -/

namespace Text

/-- A marker: something without blanks between two marks. -/
def IsMarker (opening closing m : List Char) : Prop :=
  ∃ v, v ≠ [] ∧ (∀ c ∈ v, isBlank c = false) ∧ m = opening ++ v ++ closing

/-- A text with its markers replaced.  From the left, the longest marker that begins at a place is replaced, and a
character at which none begins is kept. -/
inductive Replaced (opening closing x : List Char) : List Char → List Char → Prop
  | nil : Replaced opening closing x [] []
  | keep {c : Char} {cs after : List Char} (hnone : ∀ m, IsMarker opening closing m → ¬ m <+: c :: cs)
      (hrest : Replaced opening closing x cs after) : Replaced opening closing x (c :: cs) (c :: after)
  | replace {m post after : List Char} (hm : IsMarker opening closing m)
      (hlongest : ∀ m', IsMarker opening closing m' → m' <+: m ++ post → m'.length ≤ m.length)
      (hrest : Replaced opening closing x post after) : Replaced opening closing x (m ++ post) (x ++ after)

/-- Runs without blanks are looked at one by one. -/
theorem runs_induction {P : List Char → Prop} (hrun : ∀ run, (∀ c ∈ run, isBlank c = false) → P run)
    (hcons : ∀ run b rest, (∀ c ∈ run, isBlank c = false) → isBlank b = true → P rest → P (run ++ b :: rest))
    (cs : List Char) : P cs := by
  have hbehind : ∀ cs run : List Char, (∀ c ∈ run, isBlank c = false) → P (run ++ cs) := by
    intro cs
    induction cs with
    | nil =>
      intro run h
      rw [List.append_nil]
      exact hrun run h
    | cons c cs ih =>
      intro run h
      by_cases hc : isBlank c = true
      · exact hcons run c cs h hc (ih [] (by simp))
      · have hmore := ih (run ++ [c])
          (List.forall_mem_append.2 ⟨h, List.forall_mem_singleton.2 (Bool.eq_false_iff.2 hc)⟩)
        rwa [List.append_assoc] at hmore
  exact hbehind cs [] (by simp)

section
variable {opening closing : List Char}

/-- A text in which nothing is found between marks has no marker. -/
theorem bracketed?_eq_none {cs : List Char} (h : bracketed? opening closing cs = none) {m : List Char}
    (hm : IsMarker opening closing m) : ¬ m <:+: cs := by
  obtain ⟨v, hv, -, rfl⟩ := hm
  rintro ⟨s, t, rfl⟩
  cases hfirst : splitFirst? opening (s ++ (opening ++ v ++ closing) ++ t) with
  | none => exact splitFirst?_eq_none hfirst ⟨s, v ++ closing ++ t, by simp⟩
  | some found =>
    obtain ⟨before, rest⟩ := found
    obtain ⟨hcs, hbefore⟩ := splitFirst?_eq_some hfirst
    have hle := hbefore s (v ++ closing ++ t) (by simp)
    -- the closing mark stands behind the first opening mark, and something stands between them
    obtain ⟨u, hrest⟩ : ∃ u, rest = u ++ v ++ closing ++ t := by
      have hsame : (before ++ opening) ++ rest = (s ++ opening) ++ (v ++ closing ++ t) := by
        rw [← hcs]
        simp
      rcases List.append_eq_append_iff.1 hsame with ⟨u, -, hu⟩ | ⟨u, hu, hrest⟩
      · exact ⟨u, by rw [hu]; simp⟩
      · have hlength := congrArg List.length hu
        simp only [List.length_append] at hlength
        obtain rfl : u = [] := List.eq_nil_of_length_eq_zero (by omega)
        exact ⟨[], by simpa using hrest.symm⟩
    cases hlast : splitLast? closing rest with
    | none => exact splitLast?_eq_none hlast ⟨u ++ v, t, hrest.symm⟩
    | some found =>
      obtain ⟨inner, after⟩ := found
      have hinner : (u ++ v).length ≤ inner.length := (splitLast?_eq_some hlast).2 _ _ hrest
      have hne : inner ≠ [] := by
        rintro rfl
        exact hv (List.append_eq_nil_iff.1 (List.eq_nil_of_length_eq_zero (Nat.le_zero.1 hinner))).2
      rw [bracketed?_of_splits hfirst hlast, if_neg (by simpa using hne)] at h
      cases h

section
variable {new : List Char → List Char} {run : List Char} (hrun : ∀ c ∈ run, isBlank c = false)
include hrun

theorem replaceMarked_of_none (h : bracketed? opening closing run = none) :
    replaceMarked opening closing new run = run := by
  rw [replaceMarked, mapStretches_of_forall fun c hc => by rw [hrun c hc]; rfl]
  simp only [List.reverse_nil, List.nil_append, h]

theorem replaceMarked_of_some {before inner after : List Char}
    (h : bracketed? opening closing run = some (before, inner, after)) :
    replaceMarked opening closing new run = before ++ new (opening ++ inner ++ closing) ++ after := by
  rw [replaceMarked, mapStretches_of_forall fun c hc => by rw [hrun c hc]; rfl]
  simp only [List.reverse_nil, List.nil_append, h]

theorem replaceMarked_append_cons {b : Char} (hb : isBlank b = true) (rest : List Char) :
    replaceMarked opening closing new (run ++ b :: rest) =
      replaceMarked opening closing new run ++ b :: replaceMarked opening closing new rest := by
  have hinside : ∀ c ∈ run, (!isBlank c) = true := fun c hc => by rw [hrun c hc]; rfl
  simp only [replaceMarked]
  rw [mapStretches_append_of_forall _ hinside, mapStretches_of_forall hinside, mapStretches, if_neg (by simp [hb])]
  simp

end

/-! ### The replacement is determined -/

theorem IsMarker.ne_nil {m : List Char} (hm : IsMarker opening closing m) : m ≠ [] := by
  obtain ⟨v, hv, -, rfl⟩ := hm
  simp [hv]

theorem Replaced.unique {x cs cs' a b : List Char} (h : Replaced opening closing x cs a)
    (h' : Replaced opening closing x cs' b) (hcs : cs = cs') : a = b := by
  induction h generalizing cs' b with
  | nil =>
    cases h' with
    | nil => rfl
    | keep => cases hcs
    | replace hm => exact absurd (List.append_eq_nil_iff.1 hcs.symm).1 hm.ne_nil
  | keep hnone _ ih =>
    cases h' with
    | nil => cases hcs
    | keep _ hrest =>
      obtain ⟨rfl, hrest'⟩ := List.cons.inj hcs
      rw [ih hrest hrest']
    | replace hm => exact absurd ⟨_, hcs.symm⟩ (hnone _ hm)
  | @replace m post _ hm hlongest _ ih =>
    cases h' with
    | nil => exact absurd (List.append_eq_nil_iff.1 hcs).1 hm.ne_nil
    | keep hnone => exact absurd ⟨_, hcs⟩ (hnone _ hm)
    | @replace m' post' _ hm' hlongest' hrest =>
      have hlength : m.length = m'.length :=
        Nat.le_antisymm (hlongest' m hm ⟨post, hcs⟩) (hlongest m' hm' ⟨post', hcs.symm⟩)
      rw [ih hrest (List.append_inj_right hcs hlength)]

/-- What stands before the first marker is kept. -/
theorem Replaced.keep_append {x run k k' : List Char}
    (hnone : ∀ p q m, run = p ++ q → q ≠ [] → IsMarker opening closing m → ¬ m <+: q ++ k)
    (h : Replaced opening closing x k k') : Replaced opening closing x (run ++ k) (run ++ k') := by
  induction run with
  | nil => exact h
  | cons c run ih =>
    refine .keep (fun m hm => hnone [] (c :: run) m rfl (by simp) hm) (ih fun p q m hpq hq hm => ?_)
    exact hnone (c :: p) q m (by rw [hpq]; rfl) hq hm

/-- A run has no marker once its own is replaced, if the closing mark cannot begin in what is put in. -/
theorem markerless_run {x run : List Char} (hrun : ∀ c ∈ run, isBlank c = false) {d : Char} {ds : List Char}
    (hd : closing = d :: ds) (hx : d ∉ x) {m : List Char} (hm : IsMarker opening closing m) :
    ¬ m <:+: replaceMarked opening closing (fun _ => x) run := by
  cases hfound : bracketed? opening closing run with
  | none =>
    rw [replaceMarked_of_none hrun hfound]
    exact bracketed?_eq_none hfound hm
  | some found =>
    obtain ⟨before, inner, after⟩ := found
    obtain ⟨hparts, hne, hfirst, hlast⟩ := bracketed?_eq_some hfound
    rw [replaceMarked_of_some hrun hfound]
    obtain ⟨v, hv, -, rfl⟩ := hm
    rintro ⟨s, t, hst⟩
    have hbehind : ∀ u, after ≠ u ++ closing ++ t := by
      rintro u rfl
      have hle := hlast (inner ++ closing ++ u) t (by simp)
      rw [List.length_append, List.length_append, hd, List.length_cons] at hle
      omega
    -- the closing mark does not begin in what was put in, so it stands before or behind it
    have hsplit : before ++ (x ++ after) = (s ++ opening ++ v) ++ (closing ++ t) := by simpa using hst.symm
    rcases List.append_eq_append_iff.1 hsplit with ⟨u, -, hu⟩ | ⟨u, hu, -⟩
    · rcases List.append_eq_append_iff.1 hu with ⟨u', -, hu'⟩ | ⟨u', hu', hrest⟩
      · exact hbehind u' (by rw [hu']; simp)
      · cases u' with
        | nil => exact hbehind [] (by simpa using hrest.symm)
        | cons e u' =>
          rw [hd] at hrest
          obtain ⟨rfl, -⟩ := List.cons.inj hrest
          exact hx (by rw [hu']; simp)
    · have hle := hfirst s (v ++ u ++ opening ++ (inner ++ closing ++ after)) (by rw [hparts, hu]; simp)
      have hpos := List.length_pos_iff.2 hv
      simp only [hu, List.length_append] at hle
      omega

section
variable (hopening : ∀ c ∈ opening, isBlank c = false) (hclosing : ∀ c ∈ closing, isBlank c = false)
include hopening hclosing

theorem IsMarker.not_blank {m : List Char} (hm : IsMarker opening closing m) : ∀ c ∈ m, isBlank c = false := by
  obtain ⟨v, -, hv, rfl⟩ := hm
  exact List.forall_mem_append.2 ⟨List.forall_mem_append.2 ⟨hopening, hv⟩, hclosing⟩

/-- A marker does not reach over a blank. -/
theorem IsMarker.prefix_of_append {m q k : List Char} (hm : IsMarker opening closing m)
    (hk : ∀ b ∈ k.head?, isBlank b = true) (h : m <+: q ++ k) : m <+: q := by
  obtain ⟨t, ht⟩ := h
  rcases List.append_eq_append_iff.1 ht with ⟨u, rfl, -⟩ | ⟨u, rfl, rfl⟩
  · exact List.prefix_append m u
  · cases u with
    | nil => exact ⟨[], by simp⟩
    | cons b u =>
      have hplain := hm.not_blank hopening hclosing b (by simp)
      rw [hk b rfl] at hplain
      cases hplain

/-- A text without a marker is kept, also before a blank. -/
theorem Replaced.append_of_markerless {x run k k' : List Char} (hk : ∀ b ∈ k.head?, isBlank b = true)
    (hrun : ∀ m, IsMarker opening closing m → ¬ m <:+: run) (h : Replaced opening closing x k k') :
    Replaced opening closing x (run ++ k) (run ++ k') := by
  refine h.keep_append fun p q m hpq _ hm hbegins => hrun m hm ?_
  have hq : m <+: q := hm.prefix_of_append hopening hclosing hk hbegins
  rw [hpq]
  exact hq.isInfix.trans (List.suffix_append p q).isInfix

/-- **A run has at most one marker to replace**: from its first opening mark to the last closing mark behind it. -/
theorem Replaced.run_append {x run k k' : List Char} (hrun : ∀ c ∈ run, isBlank c = false)
    (hk : ∀ b ∈ k.head?, isBlank b = true) (h : Replaced opening closing x k k') :
    Replaced opening closing x (run ++ k) (replaceMarked opening closing (fun _ => x) run ++ k') := by
  cases hfound : bracketed? opening closing run with
  | none =>
    rw [replaceMarked_of_none hrun hfound]
    exact h.append_of_markerless hopening hclosing hk fun m hm => bracketed?_eq_none hfound hm
  | some found =>
    obtain ⟨before, inner, after⟩ := found
    obtain ⟨hparts, hne, hfirst, hlast⟩ := bracketed?_eq_some hfound
    have hmarker : IsMarker opening closing (opening ++ inner ++ closing) :=
      ⟨inner, hne, fun c hc => hrun c (by rw [hparts]; simp [hc]), rfl⟩
    have hafter : Replaced opening closing x (after ++ k) (after ++ k') := by
      refine h.append_of_markerless hopening hclosing hk ?_
      rintro m ⟨v, hv, -, rfl⟩ ⟨s, t, hst⟩
      have hle := hlast (inner ++ closing ++ s ++ opening ++ v) t (by rw [← hst]; simp)
      have hpos := List.length_pos_iff.2 hv
      simp only [List.length_append] at hle
      omega
    have hreplaced : Replaced opening closing x (opening ++ inner ++ closing ++ (after ++ k)) (x ++ (after ++ k')) := by
      refine .replace hmarker (fun m hm hbegins => ?_) hafter
      rw [← List.append_assoc] at hbegins
      obtain ⟨t, ht⟩ := hm.prefix_of_append hopening hclosing hk hbegins
      obtain ⟨v, -, -, rfl⟩ := hm
      have hle := hlast v t (by simpa using ht.symm)
      simp only [List.length_append]
      omega
    have hkept : Replaced opening closing x (before ++ (opening ++ inner ++ closing ++ (after ++ k)))
        (before ++ (x ++ (after ++ k'))) := by
      refine hreplaced.keep_append fun p q m hpq hq hm hbegins => ?_
      rw [← List.append_assoc, ← List.append_assoc] at hbegins
      obtain ⟨t, ht⟩ := hm.prefix_of_append hopening hclosing hk hbegins
      obtain ⟨v, -, -, rfl⟩ := hm
      have hle := hfirst p (v ++ closing ++ t) (by rw [hparts, hpq]; simpa using ht.symm)
      have hpos := List.length_pos_iff.2 hq
      rw [hpq, List.length_append] at hle
      omega
    rw [replaceMarked_of_some hrun hfound, hparts]
    simpa using hkept

/-- **Markers are replaced from the left, each as far as it reaches**, and nothing else is changed. -/
theorem replaced_replaceMarked (x cs : List Char) :
    Replaced opening closing x cs (replaceMarked opening closing (fun _ => x) cs) := by
  induction cs using runs_induction with
  | hrun run hrun => simpa using Replaced.nil.run_append hopening hclosing hrun (by simp)
  | hcons run b rest hrun hb ih =>
    rw [replaceMarked_append_cons hrun hb]
    have hblank : ∀ m, IsMarker opening closing m → ¬ m <+: b :: rest := fun m hm hbegins =>
      hm.ne_nil (List.prefix_nil.1 (hm.prefix_of_append hopening hclosing (q := []) (by simpa using hb) hbegins))
    exact (Replaced.keep hblank ih).run_append hopening hclosing hrun (by simpa using hb)

theorem replaced_iff {x cs after : List Char} :
    Replaced opening closing x cs after ↔ after = replaceMarked opening closing (fun _ => x) cs := by
  have hdone := replaced_replaceMarked hopening hclosing x cs
  exact ⟨fun h => h.unique hdone rfl, fun h => h ▸ hdone⟩

theorem replaceMarked_of_markerless {x cs : List Char} (h : ∀ m, IsMarker opening closing m → ¬ m <:+: cs) :
    replaceMarked opening closing (fun _ => x) cs = cs := by
  have hkept := Replaced.nil.append_of_markerless (x := x) hopening hclosing (by simp) h
  rw [List.append_nil] at hkept
  exact ((replaced_iff hopening hclosing).1 hkept).symm

/-- **What is put in for markers makes no new ones**, if the closing mark cannot begin in it. -/
theorem markerless_replaceMarked {x : List Char} {d : Char} {ds : List Char} (hd : closing = d :: ds) (hx : d ∉ x)
    (cs : List Char) {m : List Char} (hm : IsMarker opening closing m) :
    ¬ m <:+: replaceMarked opening closing (fun _ => x) cs := by
  induction cs using runs_induction with
  | hrun run hrun => exact markerless_run hrun hd hx hm
  | hcons run b rest hrun hb ih =>
    rw [replaceMarked_append_cons hrun hb]
    rintro ⟨s, t, hst⟩
    have hblank : ∀ q rest', m <+: q ++ b :: rest' → m <+: q := fun q rest' =>
      hm.prefix_of_append hopening hclosing (by simpa using hb)
    rw [List.append_assoc] at hst
    rcases List.append_eq_append_iff.1 hst with ⟨u, hu, ht⟩ | ⟨u, hu, ht⟩
    · -- it begins in the run, and does not reach over the blank
      refine markerless_run hrun hd hx hm ?_
      rw [hu]
      exact (hblank u _ ⟨t, ht⟩).isInfix.trans (List.suffix_append s u).isInfix
    · cases u with
      | nil => exact hm.ne_nil (List.prefix_nil.1 (hblank [] _ ⟨t, ht.symm⟩))
      | cons e u => exact ih ⟨u, t, by rw [List.append_assoc]; exact (List.cons.inj ht).2.symm⟩

end
end

theorem not_blank_of_all {cs : List Char} (h : cs.all (!isBlank ·) = true) : ∀ c ∈ cs, isBlank c = false := by
  simpa using h

end Text

/-! ## Filling in words -/

/-- A word with an agent in place of its markers. -/
def withAgent (x w : String) : String := fillMarks (fun _ => x.toList) w

/-- An agent whose name makes no new markers where it is put in for one. -/
def StaysFilled (x : String) : Prop := ∀ w, withAgent x (withAgent x w) = withAgent x w

theorem opening_not_blank : ∀ c ∈ "FASTART".toList, Text.isBlank c = false := Text.not_blank_of_all (by decide)

theorem closing_not_blank : ∀ c ∈ "FASTOP".toList, Text.isBlank c = false := Text.not_blank_of_all (by decide)

theorem toList_withAgent (x w : String) : (withAgent x w).toList =
    Text.replaceMarked "FASTART".toList "FASTOP".toList (fun _ => x.toList) w.toList := String.toList_ofList

/-- **A word is filled in by replacing its markers.** -/
theorem replaced_withAgent_iff {x w after : String} :
    Text.Replaced "FASTART".toList "FASTOP".toList x.toList w.toList after.toList ↔ after = withAgent x w := by
  rw [Text.replaced_iff opening_not_blank closing_not_blank, ← toList_withAgent, String.toList_inj]

theorem staysFilled {x : String} (hx : 'F' ∉ x.toList) : StaysFilled x := by
  intro w
  refine (replaced_withAgent_iff.1 ?_).symm
  rw [Text.replaced_iff opening_not_blank closing_not_blank, toList_withAgent]
  refine (Text.replaceMarked_of_markerless opening_not_blank closing_not_blank fun m hm => ?_).symm
  have hclosing : "FASTOP".toList = 'F' :: "ASTOP".toList := by decide
  exact Text.markerless_replaceMarked opening_not_blank closing_not_blank hclosing hx _ hm

theorem not_mem_of_hasMarkCapitals {x : String} (h : Source.HasMarkCapitals x) : 'F' ∉ x.toList := fun hF => by
  have hmark := h 'F' hF (by decide)
  simp at hmark

theorem withAgent_of_not_marked {w : String} (h : isMarked (.word w) = false) (x : String) : withAgent x w = w := by
  refine String.toList_inj.1 ?_
  rw [toList_withAgent]
  refine Text.replaceMarked_of_markerless opening_not_blank closing_not_blank ?_
  rintro m ⟨v, -, -, rfl⟩ hm
  have hmarked : isMarked (.word w) = true :=
    Text.occurs_iff_isInfix.2 (List.IsInfix.trans ⟨[], v ++ "FASTOP".toList, rfl⟩ hm)
  rw [h] at hmarked
  cases hmarked

theorem fillWord_word {x : String} (hx : '\\' ∉ x.toList) (w : String) :
    fillWord x (.word w) = .ok (.word (withAgent x w)) := by
  obtain ⟨parts, hparts, hfill⟩ := Text.fillIn_template hx
  have hnew : Text.fillIn parts = fun _ => x.toList := funext hfill
  simp only [fillWord, hparts, hnew, withAgent]

/-- What becomes of an item of a condition. -/
def itemFor (x : String) : Tree → Tree
  | .word w => .word (withAgent x w)
  | .list ts => .list ts

theorem map_itemFor (x : String) (ws : List String) :
    (ws.map Tree.word).map (itemFor x) = (ws.map (withAgent x)).map .word := by
  rw [List.map_map, List.map_map]
  rfl

section
variable {x : String} (hx : '\\' ∉ x.toList)
include hx

theorem filledBy_itemFor (h : StaysFilled x) (w : String) : FilledBy x (itemFor x) (.word w) where
  marked _ := fillWord_word hx w
  unmarked hplain := congrArg Tree.word (withAgent_of_not_marked hplain x)
  again := congrArg Tree.word (h w)

/-- **Every word of every condition is filled in at its own place**, whichever words and conditions are equal. -/
theorem fillConditions_words (h : StaysFilled x) (css : List (List String)) :
    fillConditions x (css.map wordList) = .ok (css.map fun ws => wordList (ws.map (withAgent x))) := by
  have hlists := fillConditions_lists (f := itemFor x) (css.map (List.map Tree.word)) (by
    intro ts hts t ht
    obtain ⟨ws, -, rfl⟩ := List.mem_map.1 hts
    obtain ⟨w, -, rfl⟩ := List.mem_map.1 ht
    exact filledBy_itemFor hx h w)
  simp only [List.map_map] at hlists
  refine hlists.trans (congrArg Except.ok (List.map_congr_left fun ws _ => ?_))
  exact congrArg Tree.list (map_itemFor x ws)

/-- A word that is filled in before an equal one is filled in again in its place. -/
theorem fillConditions_pair {w : String} (hagain : withAgent x (withAgent x w) ≠ withAgent x w) :
    fillConditions x [wordList [w, withAgent x w]] =
      .ok [wordList [withAgent x (withAgent x w), withAgent x w]] := by
  have hmarked : ∀ u, withAgent x u ≠ u → isMarked (.word u) = true := fun u hu => by
    by_contra hplain
    exact hu (withAgent_of_not_marked (Bool.eq_false_iff.2 hplain) x)
  have hw : isMarked (.word w) = true := hmarked w fun heq => hagain (by rw [heq, heq])
  have hfirst : ∀ u, fillAt x 0 0 [wordList [w, u]] = .ok [wordList [withAgent x w, u]] := fun u => by
    simp [fillAt, wordList, Tree.items, hw, fillWord_word hx, Except.map]
  have hsecond : ∀ u, isMarked (.word u) = true →
      fillAt x 0 1 [wordList [u, u]] = .ok [wordList [withAgent x u, u]] := fun u hu => by
    simp [fillAt, wordList, Tree.items, hu, fillWord_word hx, Except.map]
  have hplaces : fillConditions x [wordList [w, withAgent x w]] =
      ((fillAt x 0 0 [wordList [w, withAgent x w]]).bind fun cs => (fillAt x 0 1 cs).bind .ok).bind .ok := rfl
  rw [hplaces, hfirst, Except.bind, hsecond _ (hmarked _ hagain)]
  rfl

/-- **The agents that are filled in right** in all conditions are those that make no new markers. -/
theorem fillConditions_words_iff :
    (∀ css : List (List String), fillConditions x (css.map wordList) =
      .ok (css.map fun ws => wordList (ws.map (withAgent x)))) ↔ StaysFilled x := by
  refine ⟨fun h w => ?_, fun h css => fillConditions_words hx h css⟩
  by_contra hagain
  have hpair := h [[w, withAgent x w]]
  rw [List.map_singleton, fillConditions_pair hx hagain] at hpair
  simp only [List.map_cons, List.map_nil, wordList, Except.ok.injEq, List.cons.injEq, Tree.list.injEq,
    Tree.word.injEq, and_true] at hpair
  exact hagain hpair.1

end

/-- An agent's name and the text around a marker can make a new one, which is equal to a word behind it.  That word is
then written in the wrong place. -/
theorem fillConditions_misplaced :
    '\\' ∉ "TxF".toList ∧ isMarked (.word "TxF") = false ∧
      ["FASTARFASTARTvFASTOPASTOP", "FASTARTxFASTOP"].map (withAgent "TxF") = ["FASTARTxFASTOP", "TxF"] ∧
      fillConditions "TxF" [wordList ["FASTARFASTARTvFASTOPASTOP", "FASTARTxFASTOP"]] =
        .ok [wordList ["TxF", "FASTARTxFASTOP"]] := by
  decide +kernel

/-! ## Printing for each agent -/

/-- A guard whose conditions are lists of words. -/
def wordGuard (positive negative : List (List String)) : Guard :=
  ⟨positive.map wordList, negative.map wordList⟩

/-- A guard of words with an agent in place of the markers. -/
def guardFor (positive negative : List (List String)) (x : String) : Guard :=
  wordGuard (positive.map (List.map (withAgent x))) (negative.map (List.map (withAgent x)))

theorem forAgent_wordGuard {x : String} (hx : '\\' ∉ x.toList) (h : StaysFilled x)
    (positive negative : List (List String)) :
    (wordGuard positive negative).forAgent x = .ok (guardFor positive negative x) := by
  have hitems : ∀ css : List (List String), (css.map wordList).map itemized = css.map wordList := fun css => by
    rw [List.map_map]
    rfl
  rw [Guard.forAgent, Guard.filled, wordGuard, hitems, hitems, fillConditions_words hx h, fillConditions_words hx h,
    guardFor, wordGuard, List.map_map, List.map_map]
  rfl

namespace MAp

open Work (Keeps perform_bind_eq_ok)

/-- The statement of an agent for a quantified clause whose conditions are lists of words. -/
def agentStatement (name verb : String) (positive negative : List (List String)) (x : String) : String :=
  x ++ verb ++ name ++ (guard (guardFor positive negative x)).text

/-- Whether the conditions of a clause can be printed for an agent. -/
def PrintsFor (positive negative : List (List String)) (x : String) : Prop :=
  ∃ printed, (guard (guardFor positive negative x)).outcome = .ok printed

/-- A sheet with more statements on it. -/
def saying (sheet : Sheet) (ss : List String) : Sheet := { sheet with text := sheet.text ++ terminated ss }

theorem perform_pure_eq_ok {sheet done : Sheet} :
    (pure () : Work Sheet Unit).perform sheet = (.ok (), done) ↔ done = saying sheet [] := by
  have hnone : saying sheet [] = sheet := by simp [saying, terminated]
  rw [hnone]
  exact ⟨fun h => (Prod.mk.inj h).2.symm, fun h => by rw [h]; rfl⟩

theorem saying_append (sheet : Sheet) (ss ss' : List String) :
    saying sheet (ss ++ ss') = saying (saying sheet ss) ss' := by
  simp only [saying, terminated_append, String.append_assoc]

/-- **Quantified clauses keep their conditions**, whether they are printed to the end or not. -/
theorem keeps_marked_observer {ag : Tree} (hag : isMarked ag = true) (agents : Except Fault (List Tree))
    (name verb : String) (e : Entry) (guards : List Guard) :
    Keeps (·.guards = guards) (observer agents name verb e ag) := by
  unfold observer
  rw [if_pos hag]
  exact (Keeps.ofExcept _).bind fun known => .each fun agent _ => keeps_quantifiedObserver name verb e agent guards

section
variable {e : Entry} {left : String → Bool} {positive negative : List (List String)} (name verb : String)

/-- **One agent of a quantified clause**: its statement is made from the conditions as they are kept. -/
theorem perform_quantifiedObserver_eq_ok {sheet : Sheet}
    (hguard : guardAt sheet.guards e.guard = wordGuard positive negative)
    {a : String} (ha : '\\' ∉ a.toList ∧ StaysFilled a) (hleft : leavesOut e (.word a) = .ok (left a)) (done : Sheet) :
    (quantifiedObserver name verb e (.word a)).perform sheet = (.ok (), done) ↔
      (∀ b ∈ [a].filter (!left ·), PrintsFor positive negative b) ∧
        done = saying sheet (([a].filter (!left ·)).map (agentStatement name verb positive negative)) := by
  rw [quantifiedObserver_eq]
  rw [hleft, Work.perform_bind_ok (Work.perform_ofExcept _ sheet), List.filter_singleton]
  cases left a with
  | true =>
    rw [if_pos rfl, perform_pure_eq_ok]
    simp
  | false =>
    simp only [Bool.false_eq_true, if_false, Sheet.nameOf, pure_bind]
    rw [Sheet.perform_write_bind, Sheet.perform_guard_bind]
    simp only [hguard, forAgent_wordGuard ha.1 ha.2]
    rw [Work.perform_bind_ok (Work.perform_ofExcept _ _), perform_bind_eq_ok]
    simp only [Sheet.perform_writePrinted, Bool.not_false, cond_true, List.map_singleton, List.forall_mem_singleton]
    constructor
    · rintro ⟨printed, mid, hprinted, hend⟩
      obtain ⟨hok, rfl⟩ := Prod.mk.inj hprinted
      obtain ⟨-, rfl⟩ := Prod.mk.inj hend
      refine ⟨⟨printed, hok⟩, ?_⟩
      simp only [saying, terminated_singleton, agentStatement, String.append_assoc]
    · rintro ⟨⟨printed, hok⟩, rfl⟩
      refine ⟨printed, _, by rw [hok], ?_⟩
      rw [Sheet.perform_write]
      simp only [saying, terminated_singleton, agentStatement, String.append_assoc]

/-- **The agents of a quantified clause are printed one after the other**, each with the conditions as they are kept. -/
theorem perform_each_quantifiedObserver_eq_ok (agents : List String) : ∀ sheet done : Sheet,
    guardAt sheet.guards e.guard = wordGuard positive negative →
    (∀ a ∈ agents, '\\' ∉ a.toList ∧ StaysFilled a) → (∀ a ∈ agents, leavesOut e (.word a) = .ok (left a)) →
    ((Work.each (quantifiedObserver name verb e) (agents.map .word)).perform sheet = (.ok (), done) ↔
      (∀ a ∈ agents.filter (!left ·), PrintsFor positive negative a) ∧
        done = saying sheet ((agents.filter (!left ·)).map (agentStatement name verb positive negative))) := by
  induction agents with
  | nil =>
    intro sheet done _ _ _
    rw [List.map_nil, Work.each, perform_pure_eq_ok]
    simp
  | cons a agents ih =>
    intro sheet done hguard hagents hleft
    obtain ⟨ha, hagents⟩ := List.forall_mem_cons.1 hagents
    obtain ⟨hlefta, hleft⟩ := List.forall_mem_cons.1 hleft
    have hstep := perform_quantifiedObserver_eq_ok name verb hguard ha hlefta
    rw [List.map_cons, Work.each, perform_bind_eq_ok, ← List.singleton_append, List.filter_append,
      List.forall_mem_append, List.map_append, saying_append]
    constructor
    · rintro ⟨_, mid, hfirst, hrest⟩
      obtain ⟨hprints, rfl⟩ := (hstep mid).1 hfirst
      obtain ⟨hmore, rfl⟩ := (ih (saying sheet _) done hguard hagents hleft).1 hrest
      exact ⟨⟨hprints, hmore⟩, rfl⟩
    · rintro ⟨⟨hprints, hmore⟩, rfl⟩
      exact ⟨(), _, (hstep _).2 ⟨hprints, rfl⟩, (ih (saying sheet _) _ hguard hagents hleft).2 ⟨hmore, rfl⟩⟩

end

/-- **Markers are replaced in every word of every condition, and conditions are kept.**  Markers are replaced from the
left, each as far as it reaches.  Every word is filled in at its own place, in all conditions, exactly for the agents
that make no new markers, such as names without an `F`, and so all words that a text is read into.  A quantified clause
keeps its conditions when it is printed, because they are filled in and cleared in a copy, so that each agent that it
does not leave out has its statement from the conditions as they were. -/
theorem observer_fills_markers :
    (∀ x w after : String,
      Text.Replaced "FASTART".toList "FASTOP".toList x.toList w.toList after.toList ↔ after = withAgent x w) ∧
    (∀ x : String, '\\' ∉ x.toList →
      ((∀ css : List (List String), fillConditions x (css.map wordList) =
        .ok (css.map fun ws => wordList (ws.map (withAgent x)))) ↔ StaysFilled x)) ∧
    (∀ x : String, 'F' ∉ x.toList → StaysFilled x) ∧
    (∀ dialect text t, Source.scan dialect text = .ok t → t.AllWords fun x => 'F' ∉ x.toList ∧ StaysFilled x) ∧
    ∀ (ag : Tree), isMarked ag = true → ∀ (name verb : String) (e : Entry) (sheet : Sheet),
      (∀ agents, ((observer agents name verb e ag).perform sheet).2.guards = sheet.guards) ∧
      ∀ (agents : List String) (left : String → Bool) (positive negative : List (List String)) (done : Sheet),
        guardAt sheet.guards e.guard = wordGuard positive negative →
        (∀ a ∈ agents, '\\' ∉ a.toList ∧ StaysFilled a) →
        (∀ a ∈ agents, leavesOut e (.word a) = .ok (left a)) →
        ((observer (.ok (agents.map .word)) name verb e ag).perform sheet = (.ok (), done) ↔
          (∀ a ∈ agents.filter (!left ·), PrintsFor positive negative a) ∧
            done = saying sheet ((agents.filter (!left ·)).map (agentStatement name verb positive negative))) := by
  refine ⟨fun x w after => replaced_withAgent_iff, fun x hx => fillConditions_words_iff hx, fun x hx => staysFilled hx,
    fun dialect text t hscan => (Source.capitals_of_scan hscan).imp fun x hx => ⟨not_mem_of_hasMarkCapitals hx,
      staysFilled (not_mem_of_hasMarkCapitals hx)⟩,
    fun ag hag name verb e sheet => ⟨fun agents => ?_, ?_⟩⟩
  · exact keeps_marked_observer hag agents name verb e sheet.guards sheet rfl
  · intro agents left positive negative done hguard hagents hleft
    unfold observer
    rw [if_pos hag, Work.perform_bind_ok (Work.perform_ofExcept _ sheet)]
    exact perform_each_quantifiedObserver_eq_ok name verb agents sheet done hguard hagents hleft

/-- A condition in which a marker stands three times. -/
def nearby : List String := ["B(FASTART?agFASTOP,", "near", "FASTART?agFASTOP", "FASTART?agFASTOP"]

/-- A clause for all agents, under the guard at the first place. -/
def everyone : Entry := { body := wordList ["FASTART?agFASTOP"], guard := 0, excluded := [wordList [""]] }

/-- A sheet with one guard, in which a condition stands twice. -/
def lookSheet : Sheet := { text := "", report := "", guards := [wordGuard [nearby, nearby] [["dark"]]] }

theorem observer_fills_markers_everyone :
    (observer (.ok (["ann", "bob"].map .word)) "look" " observes " everyone
      (.word "FASTART?agFASTOP")).perform lookSheet =
      (.ok (), { lookSheet with text := "ann observes look if B(ann,near_ann_ann), B(ann,near_ann_ann), -dark;\n" ++
        "bob observes look if B(bob,near_bob_bob), B(bob,near_bob_bob), -dark;\n" }) := by
  obtain ⟨-, -, hstays, -, hprinting⟩ := observer_fills_markers
  have hletters : ∀ a ∈ ["ann", "bob"], '\\' ∉ a.toList ∧ 'F' ∉ a.toList := by decide
  have hagents : ∀ a ∈ ["ann", "bob"], '\\' ∉ a.toList ∧ StaysFilled a := fun a ha =>
    ⟨(hletters a ha).1, hstays a (hletters a ha).2⟩
  have hok : ∀ a ∈ ["ann", "bob"], (guard (guardFor [nearby, nearby] [["dark"]] a)).outcome.isOk = true := by
    decide +kernel
  have hprints : ∀ a ∈ ["ann", "bob"], PrintsFor [nearby, nearby] [["dark"]] a := fun a ha => by
    unfold PrintsFor
    cases houtcome : (guard (guardFor [nearby, nearby] [["dark"]] a)).outcome with
    | ok printed => exact ⟨printed, rfl⟩
    | error fault =>
      have := hok a ha
      rw [houtcome] at this
      cases this
  refine ((hprinting _ (by decide) _ _ _ _).2 ["ann", "bob"] (fun _ => false) [nearby, nearby] [["dark"]] _ rfl hagents
    fun _ _ => rfl).2 ⟨hprints, congrArg (Sheet.mk · "" _) ?_⟩
  decide +kernel

end MAp
end Epistemic
