import Epistemic.Effect.Quantified
import Epistemic.Pdkb.Formula
import Epistemic.Proofs.Words
import Mathlib.Algebra.Ring.Nat
/-!
# Characters of a text

A tree is shown without the characters that its words do without, but for those that quote them and stand between them
(`avoids_shown`), and a formula whose words stand on one line stands on one line (`Pdkb.oneLine_formula`).
-/
namespace Epistemic

/-! ## Letters of a text -/

/-- How often a letter stands in some words. -/
def lettersIn (d : Char) (ws : List String) : Nat := (ws.map (·.toList.count d)).sum

theorem lettersIn_cons (d : Char) (w : String) (ws : List String) :
    lettersIn d (w :: ws) = w.toList.count d + lettersIn d ws := by
  rw [lettersIn, List.map_cons, List.sum_cons]
  rfl

theorem lettersIn_append (d : Char) (ws us : List String) :
    lettersIn d (ws ++ us) = lettersIn d ws + lettersIn d us := by
  rw [lettersIn, List.map_append, List.sum_append]
  rfl

theorem lettersIn_eq_zero {d : Char} {ws : List String} : lettersIn d ws = 0 ↔ ∀ w ∈ ws, d ∉ w.toList := by
  induction ws with
  | nil => simp [lettersIn]
  | cons w ws ih => rw [lettersIn_cons, Nat.add_eq_zero_iff, List.count_eq_zero, ih, List.forall_mem_cons]

theorem count_intercalate {d : Char} {sep : String} (hd : d ∉ sep.toList) (ws : List String) :
    (String.intercalate sep ws).toList.count d = lettersIn d ws := by
  induction ws with
  | nil => simp [lettersIn]
  | cons w ws ih =>
    cases ws with
    | nil => simp [lettersIn]
    | cons u ws =>
      rw [String.intercalate_cons_cons, String.toList_append, String.toList_append, List.count_append,
        List.count_append, ih, List.count_eq_zero.2 hd, lettersIn_cons d w]
      omega

/-! ## Characters that are avoided -/

/-- A text without some characters. -/
def Avoids (bad : Char → Bool) (s : String) : Prop := ∀ c ∈ s.toList, bad c = false

/-- Characters that showing a tree does not add. -/
structure Unshown (bad : Char → Bool) : Prop where
  digits : ∀ k < 16, bad (Nat.digitChar k) = false
  marks : Avoids bad "\\xuUtnr'\"[], "

section
variable {bad : Char → Bool}

instance (s : String) : Decidable (Avoids bad s) :=
  decidable_of_iff (s.toList.all (!bad ·) = true) (by simp [Avoids])

theorem Avoids.append {s t : String} (hs : Avoids bad s) (ht : Avoids bad t) : Avoids bad (s ++ t) := by
  intro c hc
  rw [String.toList_append, List.mem_append] at hc
  exact hc.elim (hs c) (ht c)

theorem avoids_intercalate {sep : String} {ss : List String} (hsep : Avoids bad sep) (h : ∀ s ∈ ss, Avoids bad s) :
    Avoids bad (String.intercalate sep ss) := by
  intro c hc
  by_contra hbad
  revert hc
  rw [String.toList_intercalate]
  refine Source.not_mem_intercalate (fun hc => hbad (hsep c hc)) fun l hl hc => ?_
  obtain ⟨s, hs, rfl⟩ := List.mem_map.1 hl
  exact hbad (h s hs c hc)

/-! ## Shown trees -/

variable (hbad : Unshown bad)
include hbad

theorem avoids_hexDigits : ∀ (width n : Nat), ∀ c ∈ Text.hexDigits width n, bad c = false := by
  intro width
  induction width with
  | zero =>
    intro n c hc
    cases hc
  | succ width ih =>
    intro n c hc
    rcases List.mem_append.1 hc with hc | hc
    · exact ih _ c hc
    · rw [List.mem_singleton.1 hc]
      exact hbad.digits _ (Nat.mod_lt n (by decide))

theorem avoids_numbered (c : Char) : ∀ x ∈ Text.numbered c, bad x = false := by
  have hescape : ∀ {k : Char} {width : Nat}, bad k = false →
      ∀ x ∈ '\\' :: k :: Text.hexDigits width c.toNat, bad x = false := by
    intro k width hk x hx
    simp only [List.mem_cons] at hx
    rcases hx with rfl | rfl | hx
    · exact hbad.marks _ (by decide)
    · exact hk
    · exact avoids_hexDigits hbad width _ x hx
  unfold Text.numbered
  split
  · exact hescape (hbad.marks _ (by decide))
  · split
    · exact hescape (hbad.marks _ (by decide))
    · exact hescape (hbad.marks _ (by decide))

theorem avoids_quotedChar {quote c : Char} (hc : bad c = false) : ∀ x ∈ Text.quotedChar quote c, bad x = false := by
  have hslash := hbad.marks '\\' (by decide)
  unfold Text.quotedChar
  split_ifs
  · simpa [hslash] using hc
  · simp [hslash, hbad.marks 't' (by decide)]
  · simp [hslash, hbad.marks 'n' (by decide)]
  · simp [hslash, hbad.marks 'r' (by decide)]
  · simpa using hc
  · exact avoids_numbered hbad c

theorem avoids_quoted {w : String} (h : Avoids bad w) : Avoids bad (Text.quoted w) := by
  have hmark : ∀ cs, bad (Text.quoteMark cs) = false := by
    intro cs
    unfold Text.quoteMark
    split <;> exact hbad.marks _ (by decide)
  intro c hc
  rw [Text.quoted, String.toList_ofList, List.mem_append, List.mem_cons, List.mem_flatMap, List.mem_singleton] at hc
  rcases hc with (rfl | ⟨x, hx, hc⟩) | rfl
  · exact hmark _
  · exact avoids_quotedChar hbad (h x hx) c hc
  · exact hmark _

omit hbad in
theorem Unshown.avoids (hbad : Unshown bad) {s : String}
    (h : s.toList.all ("\\xuUtnr'\"[], ".toList.contains ·) = true) : Avoids bad s := by
  intro c hc
  exact hbad.marks c (List.contains_iff_mem.1 (List.all_eq_true.1 h c hc))

omit hbad in
mutual
theorem avoids_shownInside (hbad : Unshown bad) : ∀ {t : Tree}, t.AllWords (Avoids bad) → Avoids bad t.shownInside
  | .word _, h => avoids_quoted hbad h
  | .list xs, h => by
    have hitems : Avoids bad (String.intercalate ", " (Tree.shownItems xs)) :=
      avoids_intercalate (hbad.avoids (by decide)) (avoids_shownItems hbad h)
    exact ((hbad.avoids (by decide)).append hitems).append (hbad.avoids (by decide))
theorem avoids_shownItems (hbad : Unshown bad) : ∀ {xs : List Tree}, Tree.AllWordsOf (Avoids bad) xs →
    ∀ s ∈ Tree.shownItems xs, Avoids bad s
  | [], _, _, hs => by cases hs
  | x :: xs, h, s, hs => by
    rcases List.mem_cons.1 hs with rfl | hs
    · exact avoids_shownInside hbad h.1
    · exact avoids_shownItems hbad h.2 s hs
end

/-- **A tree is shown without the characters that its words do without.** -/
theorem avoids_shown {t : Tree} (h : t.AllWords (Avoids bad)) : Avoids bad t.shown := by
  cases t with
  | word w => exact h
  | list xs => exact avoids_shownInside hbad h

end

/-! ## Lines -/

/-- A text that stands on one line. -/
def OneLine (s : String) : Prop := Avoids (· == '\n') s

instance (s : String) : Decidable (OneLine s) := inferInstanceAs (Decidable (Avoids _ s))

theorem oneLine_iff {s : String} : OneLine s ↔ '\n' ∉ s.toList := by
  constructor
  · intro h hm
    exact absurd (h '\n' hm) (by decide)
  · intro h c hc
    simp only [beq_eq_false_iff_ne]
    rintro rfl
    exact h hc

theorem unshown_newline : Unshown (· == '\n') := ⟨by decide, by decide⟩

theorem OneLine.append {s t : String} (hs : OneLine s) (ht : OneLine t) : OneLine (s ++ t) := Avoids.append hs ht

theorem oneLine_replaceAll {piece new : List Char} {w : String} (hnew : '\n' ∉ new) (hw : OneLine w) :
    '\n' ∉ Text.replaceAll piece new w.toList :=
  fun hm => (Text.mem_of_mem_replaceFrom hm).elim hnew (oneLine_iff.1 hw)

namespace Text

theorem forall_mapStretches {P : Char → Prop} {inside : Char → Bool} {f : List Char → List Char}
    (hf : ∀ run, (∀ c ∈ run, P c) → ∀ c ∈ f run, P c) : ∀ {cs stretch : List Char}, (∀ c ∈ stretch, P c) →
    (∀ c ∈ cs, P c) → ∀ c ∈ mapStretches inside f stretch cs, P c
  | [], stretch, hstretch, _ => by
    rw [mapStretches]
    exact hf _ (by simpa using hstretch)
  | x :: cs, stretch, hstretch, hcs => by
    obtain ⟨hx, hcs⟩ := List.forall_mem_cons.1 hcs
    rw [mapStretches]
    split
    · exact forall_mapStretches hf (List.forall_mem_cons.2 ⟨hx, hstretch⟩) hcs
    · refine List.forall_mem_append.2 ⟨hf _ (by simpa using hstretch), List.forall_mem_cons.2 ⟨hx, ?_⟩⟩
      exact forall_mapStretches hf (by simp) hcs

end Text

/-- Filling in a name puts nothing else in. -/
theorem oneLine_fillMarks {name w : String} (hname : OneLine name) (hw : OneLine w) :
    OneLine (fillMarks (fun _ => name.toList) w) := by
  intro c hc
  rw [fillMarks, String.toList_ofList] at hc
  refine Text.forall_mapStretches (P := fun c => (c == '\n') = false) (fun run hrun c hc => ?_) (by simp) hw c hc
  simp only at hc
  split at hc
  · rename_i before inner after hbracketed
    obtain ⟨rfl, -⟩ := Text.bracketed?_eq_some hbracketed
    rcases List.mem_append.1 hc with hc | hc
    · exact (List.mem_append.1 hc).elim (fun hc => hrun c (by simp [hc])) (hname c)
    · exact hrun c (by simp [hc])
  · exact hrun c hc

namespace Pdkb

theorem oneLine_closings (n : Nat) : OneLine (closings n) := by
  intro c hc
  rw [closings, String.toList_ofList] at hc
  rw [(List.mem_replicate.1 hc).2]
  rfl

theorem oneLine_sign {keep : Bool} {t t' : Tree} (ht : t.AllWords OneLine) (h : sign keep t = .ok t') :
    t'.AllWords OneLine := by
  unfold sign at h
  split at h
  · split at h <;> cases h
    exact oneLine_iff.2 (by simpa using oneLine_replaceAll (by decide) ht)
  · cases h
    exact ht

theorem oneLine_operator {t : Tree} {text : String} (ht : t.AllWords OneLine) (h : operator? t = .ok (some text)) :
    OneLine text := by
  unfold operator? at h
  split at h
  · split at h
    · rename_i w
      cases h
      refine oneLine_iff.2 fun hm => ?_
      rw [agents, String.toList_ofList, List.mem_append] at hm
      rcases hm with hm | hm
      · exact oneLine_replaceAll (by decide) ht (List.dropLast_subset _ hm)
      · revert hm
        decide
    · cases h
  · cases h

section
variable (keep : Bool)

mutual
theorem oneLine_formulaFrom : ∀ (skip opened : Nat) (behind : Bool) (ts : List Tree) {text : String},
    (∀ t ∈ ts, t.AllWords OneLine) → formulaFrom keep skip opened behind ts = .ok text → OneLine text
  | _, opened, _, [], text, _, h => by
    rw [formulaFrom] at h
    cases h
    exact oneLine_closings opened
  | skip + 1, opened, behind, _ :: ts, text, hts, h => by
    rw [formulaFrom] at h
    exact oneLine_formulaFrom skip opened behind ts (List.forall_mem_cons.1 hts).2 h
  | 0, opened, behind, t :: ts, text, hts, h => by
    obtain ⟨ht, hts⟩ := List.forall_mem_cons.1 hts
    rw [formulaFrom] at h
    split at h
    · cases h
    · rename_i t' hsign
      have ht' := oneLine_sign ht hsign
      split at h
      · cases h
      · cases hrest : formulaFrom keep 0 (if behind then opened + 1 else opened) false ts with
        | error e =>
          rw [hrest] at h
          cases h
        | ok rest =>
          rw [hrest] at h
          cases h
          have hrest := oneLine_formulaFrom 0 _ false ts hts hrest
          refine (((OneLine.append ?_ (avoids_shown unshown_newline ht')).append ?_).append hrest)
          · split <;> decide
          · split <;> decide
      · rename_i op hop
        split at h
        · cases h
        · rename_i inner skip hbehind
          cases hrest : formulaFrom keep skip opened true ts with
          | error e =>
            rw [hrest] at h
            cases h
          | ok rest =>
            rw [hrest] at h
            cases h
            have hrest := oneLine_formulaFrom skip _ true ts hts hrest
            exact ((oneLine_operator ht' hop).append (oneLine_behindOperator ts hts hbehind)).append hrest
theorem oneLine_behindOperator : ∀ (ts : List Tree) {text : String} {skip : Nat}, (∀ t ∈ ts, t.AllWords OneLine) →
    behindOperator keep ts = .ok (text, skip) → OneLine text
  | [], _, _, _, h => by
    rw [behindOperator] at h
    cases h
  | t :: _, text, skip, hts, h => by
    rw [behindOperator] at h
    exact oneLine_enclosed t (List.forall_mem_cons.1 hts).1 h
theorem oneLine_enclosed : ∀ (t : Tree) {text : String} {skip : Nat}, t.AllWords OneLine →
    enclosed keep t = .ok (text, skip) → OneLine text
  | .word _, _, _, _, h => by
    rw [enclosed] at h
    cases h
    decide
  | .list inner, text, skip, ht, h => by
    rw [enclosed] at h
    cases hinner : formulaFrom keep 0 0 true inner with
    | error e =>
      rw [hinner] at h
      cases h
    | ok found =>
      rw [hinner] at h
      cases h
      exact oneLine_formulaFrom 0 0 true inner (Tree.allWords_list.1 ht) hinner
end

end

/-- **A formula whose words stand on one line stands on one line.** -/
theorem oneLine_formula {t : Tree} {text : String} (ht : ∀ x ∈ t.items, x.AllWords OneLine)
    (h : formula t = .ok text) : OneLine text :=
  oneLine_formulaFrom false 0 0 false t.items ht h

end Pdkb
end Epistemic
