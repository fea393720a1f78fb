import Epistemic.Proofs.Glyphs
import Epistemic.Proofs.Operators
import Epistemic.Proofs.Signs
/-!
# Signs of glyphs

Thinning glyphs sheds their signs where they are spaced (`signsFrom_thin`).  Where they are not, words run together and
lists come to be glued to operators, so that the signs are blurred as well (`blurs_thin`).
-/
namespace Epistemic.Source
namespace Glyph

open Text (isBlank)

/-- The names of the agents in brackets. -/
def agentsIn (a : List Char) : List String :=
  (tokens a).filterMap fun
    | .word w => some w
    | _ => none

/-- The word of which the letters have been collected backwards, if there is one. -/
def finished (letters : List Char) : List String :=
  if letters.isEmpty then [] else [String.ofList letters.reverse]

/-- The signs of glyphs, behind an operator or not, where `letters` are those of a word that has begun, the last one
first. -/
def signsFrom : (glued : Bool) → (letters : List Char) → List Glyph → List Sign
  | _, letters, [] => (finished letters).map .word
  | glued, letters, opens :: gs => (finished letters).map .word ++ .opens glued :: signsFrom false [] gs
  | _, letters, closes :: gs => (finished letters).map .word ++ .closes :: signsFrom false [] gs
  | _, letters, operator a :: gs =>
    (finished letters).map .word ++ .word (operatorName (agentsIn a)) :: signsFrom true [] gs
  | _, letters, other c :: gs =>
    if isBlank c then (finished letters).map .word ++ signsFrom false [] gs else signsFrom false (c :: letters) gs

/-- The signs of glyphs. -/
def signs (gs : List Glyph) : List Sign := signsFrom false [] gs

/-! ## Depth and glue -/

theorem chars_operator_no_parenthesis {a : List Char} (h : (operator a).proper = true) :
    ∀ c ∈ (operator a).chars, isParenthesis c = false := by
  intro c hc
  rcases List.mem_cons.1 hc with rfl | hc
  · rfl
  · rcases List.mem_append.1 hc with hc | hc
    · exact isParenthesis_of_mark?_none (mem_chars_operator h hc)
    · rw [List.mem_singleton.1 hc]
      rfl

/-- **Signs are as deep as their text.** -/
theorem signDepthFrom_signsFrom : ∀ {gs : List Glyph}, solid gs = true → ∀ (glued : Bool) (letters : List Char)
    (d : Nat), signDepthFrom d (signsFrom glued letters gs) = depthFrom d (spell gs)
  | [], _, _, letters, d => by
    rw [signsFrom, ← List.append_nil ((finished letters).map Sign.word), signDepthFrom_words]
    rfl
  | opens :: gs, h, _, _, d => by
    rw [signsFrom, signDepthFrom_words, signDepthFrom, signDepthFrom_signsFrom (solid_cons h).2]
    rfl
  | closes :: gs, h, _, _, d => by
    rw [signsFrom, signDepthFrom_words, signDepthFrom, signDepthFrom_signsFrom (solid_cons h).2]
    rfl
  | operator a :: gs, h, _, _, d => by
    obtain ⟨ha, hgs⟩ := solid_cons h
    rw [signsFrom, signDepthFrom_words, signDepthFrom, signDepthFrom_signsFrom hgs, spell,
      depthFrom_append_left (chars_operator_no_parenthesis ha)]
  | other c :: gs, h, _, letters, d => by
    obtain ⟨hc, hgs⟩ := solid_cons h
    obtain ⟨ho, hcl, -, -⟩ := ne_of_mark?_none (mark?_of_other hc)
    have hspell : depthFrom d (spell (other c :: gs)) = depthFrom d (spell gs) := depthFrom_other d _ ho hcl
    rw [signsFrom, hspell]
    split
    · rw [signDepthFrom_words, signDepthFrom_signsFrom hgs]
    · exact signDepthFrom_signsFrom hgs false (c :: letters) d

theorem glueOk_signsFrom : ∀ (gs : List Glyph) {glued word : Bool} {letters : List Char},
    (glued = true → word = true ∧ letters = []) → glueOk word (signsFrom glued letters gs) = true
  | [], _, word, letters, _ => by
    have := @glueOk_words [] (fun _ => rfl) (finished letters) word
    rwa [List.append_nil] at this
  | opens :: gs, glued, word, letters, h => by
    have ih : glueOk false (signsFrom false [] gs) = true := glueOk_signsFrom gs (fun h => by cases h)
    cases glued with
    | true =>
      obtain ⟨rfl, rfl⟩ := h rfl
      exact ih
    | false =>
      rw [signsFrom]
      exact glueOk_words (fun _ => by rw [glueOk, ih]; rfl) (finished letters) word
  | closes :: gs, _, word, letters, _ => by
    rw [signsFrom]
    exact glueOk_words (fun _ => by rw [glueOk]; exact glueOk_signsFrom gs (fun h => by cases h)) _ word
  | operator _ :: gs, _, word, letters, _ => by
    rw [signsFrom]
    exact glueOk_words (fun _ => by rw [glueOk]; exact glueOk_signsFrom gs (fun _ => ⟨rfl, rfl⟩)) _ word
  | other c :: gs, _, word, letters, _ => by
    rw [signsFrom]
    split
    · exact glueOk_words (fun _ => glueOk_signsFrom gs (fun h => by cases h)) (finished letters) word
    · exact glueOk_signsFrom gs (fun h => by cases h)

/-! ## Spacing -/

/-- The first glyph that is not a closing parenthesis. -/
def beyond? : List Glyph → Option Glyph
  | closes :: gs => beyond? gs
  | g :: _ => some g
  | [] => none

/-- Whether glyphs may stand behind an operator: none is glued to it once closing parentheses are taken away. -/
def fitsOperator : List Glyph → Bool
  | closes :: gs => beyond? gs != some opens
  | _ => true

/-- Whether glyphs may stand behind a letter: no word runs on once closing parentheses are taken away. -/
def fitsLetter : List Glyph → Bool
  | closes :: gs =>
    match beyond? gs with
    | some (other c) => isBlank c
    | _ => true
  | _ => true

/-- Whether glyphs are spaced so that nothing is joined when parentheses are taken away. -/
def spaced : List Glyph → Bool
  | [] => true
  | operator _ :: gs => fitsOperator gs && spaced gs
  | other c :: gs => (isBlank c || fitsLetter gs) && spaced gs
  | opens :: gs => spaced gs
  | closes :: gs => spaced gs

theorem beyond?_of_head? {gs : List Glyph} (h : gs.head? ≠ some closes) : beyond? gs = gs.head? := by
  cases gs with
  | nil => rfl
  | cons g gs =>
    cases g with
    | opens => rfl
    | closes => exact absurd rfl h
    | operator a => rfl
    | other c => rfl

theorem beyond?_thin : ∀ (gs : List Glyph) (due : Bool), beyond? (thin false due gs) = beyond? gs
  | [], _ => rfl
  | opens :: _, _ => rfl
  | operator _ :: _, _ => rfl
  | other _ :: _, _ => rfl
  | closes :: gs, due => by
    rw [thin, beyond?]
    split
    · exact beyond?_thin gs false
    · rw [beyond?, beyond?_thin gs due]

theorem fitsLetter_of_head? {gs : List Glyph} (h : gs.head? ≠ some closes) : fitsLetter gs = true := by
  cases gs with
  | nil => rfl
  | cons g gs =>
    cases g with
    | opens => rfl
    | closes => exact absurd rfl h
    | operator a => rfl
    | other c => rfl

theorem fitsOperator_of_head? {gs : List Glyph} (h : gs.head? ≠ some closes) : fitsOperator gs = true := by
  cases gs with
  | nil => rfl
  | cons g gs =>
    cases g with
    | opens => rfl
    | closes => exact absurd rfl h
    | operator a => rfl
    | other c => rfl

theorem fitsLetter_thin {gs : List Glyph} (h : fitsLetter gs = true) (due : Bool) :
    fitsLetter (thin false due gs) = true := by
  cases gs with
  | nil => rfl
  | cons g gs =>
    cases g with
    | opens => rfl
    | operator a => rfl
    | other c => rfl
    | closes =>
      rw [thin]
      split
      · rename_i hdrop
        have hhead := head?_of_dropped hdrop
        exact fitsLetter_of_head? (by rw [head?_thin hhead]; exact hhead)
      · rw [fitsLetter, beyond?_thin]
        exact h

theorem fitsOperator_thin {gs : List Glyph} (hhollow : hollow gs = false) (h : fitsOperator gs = true) (due : Bool) :
    fitsOperator (thin true due gs) = true := by
  cases gs with
  | nil => rfl
  | cons g gs =>
    cases g with
    | operator a => rfl
    | other c => rfl
    | opens =>
      have hhead := head?_of_hollow hhollow
      rw [thin]
      split
      · exact fitsOperator_of_head? (by rw [head?_thin hhead]; exact hhead)
      · rfl
    | closes =>
      rw [thin]
      split
      · rename_i hdrop
        have hhead := head?_of_dropped hdrop
        exact fitsOperator_of_head? (by rw [head?_thin hhead]; exact hhead)
      · rw [fitsOperator, beyond?_thin]
        exact h

/-- **Spaced glyphs stay spaced.** -/
theorem spaced_thin : ∀ {gs : List Glyph}, solid gs = true → spaced gs = true → ∀ glued due,
    spaced (thin glued due gs) = true
  | [], _, _, _, _ => rfl
  | opens :: gs, hs, h, glued, due => by
    have h : spaced gs = true := h
    have hs := (solid_cons hs).2
    rw [thin]
    split
    · exact spaced_thin hs h false true
    · exact spaced_thin hs h false false
  | closes :: gs, hs, h, glued, due => by
    have h : spaced gs = true := h
    have hs := (solid_cons hs).2
    rw [thin]
    split
    · exact spaced_thin hs h false false
    · exact spaced_thin hs h false due
  | operator a :: gs, hs, h, glued, due => by
    rw [spaced, Bool.and_eq_true] at h
    rw [thin, spaced, fitsOperator_thin (hollow_of_solid hs) h.1, spaced_thin (solid_cons hs).2 h.2]
    rfl
  | other c :: gs, hs, h, glued, due => by
    rw [spaced, Bool.and_eq_true, Bool.or_eq_true] at h
    rw [thin, spaced, spaced_thin (solid_cons hs).2 h.2, Bool.and_true, Bool.or_eq_true]
    exact h.1.imp_right fun hl => fitsLetter_thin hl due

/-! ## Thinning sheds signs -/

theorem closeAhead_signsFrom : ∀ (gs : List Glyph) (glued : Bool) (letters : List Char),
    closeAhead (signsFrom glued letters gs) = closesAhead gs
  | [], _, letters => by
    rw [signsFrom, ← List.append_nil ((finished letters).map Sign.word), closeAhead_words]
    rfl
  | opens :: gs, glued, letters => by rw [signsFrom, closeAhead_words]; rfl
  | closes :: gs, glued, letters => by rw [signsFrom, closeAhead_words]; rfl
  | operator a :: gs, glued, letters => by
    rw [signsFrom, closeAhead_words, closeAhead, closeAhead_signsFrom gs true []]
    rfl
  | other c :: gs, glued, letters => by
    rw [signsFrom]
    split
    · rw [closeAhead_words, closeAhead_signsFrom gs false []]; rfl
    · rw [closeAhead_signsFrom gs false (c :: letters)]; rfl

theorem sheds_signsFrom : ∀ (gs : List Glyph) (glued : Bool) (letters : List Char),
    sheds (signsFrom glued letters gs) = thins glued gs
  | [], _, letters => by
    rw [signsFrom, ← List.append_nil ((finished letters).map Sign.word), sheds_words]
    rfl
  | opens :: gs, glued, letters => by
    rw [signsFrom, sheds_words, sheds, closeAhead_signsFrom, sheds_signsFrom gs false [], thins]
  | closes :: gs, glued, letters => by rw [signsFrom, sheds_words, sheds, sheds_signsFrom gs false [], thins]
  | operator a :: gs, glued, letters => by rw [signsFrom, sheds_words, sheds, sheds_signsFrom gs true [], thins]
  | other c :: gs, glued, letters => by
    rw [signsFrom]
    split
    · rw [sheds_words, sheds_signsFrom gs false [], thins]
    · rw [sheds_signsFrom gs false (c :: letters), thins]

/-- A word ends where nothing runs on, and nothing is glued where no list begins. -/
theorem signsFrom_cut {gs : List Glyph} {glued : Bool} {letters : List Char}
    (hglued : glued = true → gs.head? ≠ some opens)
    (hletters : letters ≠ [] → ∀ c, gs.head? = some (other c) → isBlank c = true) :
    signsFrom glued letters gs = (finished letters).map .word ++ signsFrom false [] gs := by
  cases gs with
  | nil => rw [signsFrom, signsFrom]; simp [finished]
  | cons g gs =>
    cases g with
    | opens =>
      have hg : glued = false := by
        cases glued with
        | false => rfl
        | true => exact absurd rfl (hglued rfl)
      rw [hg, signsFrom, signsFrom]
      rfl
    | closes => rw [signsFrom, signsFrom]; rfl
    | operator a => rw [signsFrom, signsFrom]; rfl
    | other c =>
      rw [signsFrom, signsFrom]
      cases hc : isBlank c with
      | true => rfl
      | false =>
        have hnil : letters = [] := Classical.byContradiction fun hne => by
          have := hletters hne c rfl
          rw [hc] at this
          cases this
        rw [hnil]
        rfl

/-- **Thinning sheds signs**, where glyphs are spaced. -/
theorem signsFrom_thin : ∀ {gs : List Glyph}, solid gs = true → spaced gs = true → ∀ {glued : Bool}
    {letters : List Char}, (glued = true → letters = [] ∧ hollow gs = false ∧ fitsOperator gs = true) →
    (letters ≠ [] → fitsLetter gs = true) → ∀ due : Bool,
    signsFrom glued letters (thin glued due gs) = shed due (signsFrom glued letters gs)
  | [], _, _, _, letters, _, _, due => by
    have := shed_words due [] (finished letters)
    rw [List.append_nil] at this
    rw [thin, signsFrom, this]
    simp [shed]
  | opens :: gs, hs, h, glued, letters, hglued, _, due => by
    have ih : ∀ due, signsFrom false [] (thin false due gs) = shed due (signsFrom false [] gs) :=
      signsFrom_thin (solid_cons hs).2 h (fun h => by cases h) (fun h => absurd rfl h)
    rw [thin, signsFrom, shed_words, shed, closeAhead_signsFrom]
    split
    · rename_i hdrop
      rw [Bool.and_eq_true] at hdrop
      obtain ⟨rfl, hhollow, -⟩ := hglued hdrop.1
      have hhead := head?_of_hollow hhollow
      have hopens : gs.head? ≠ some opens := by
        intro ho
        cases gs with
        | nil => cases ho
        | cons g gs => cases ho; exact absurd hdrop.2 (by simp [closesAhead])
      rw [signsFrom_cut (fun _ => by rw [head?_thin hhead]; exact hopens) (fun h => absurd rfl h), ih]
    · rw [signsFrom, ih]
  | closes :: gs, hs, h, glued, letters, hglued, hletters, due => by
    have ih : ∀ due, signsFrom false [] (thin false due gs) = shed due (signsFrom false [] gs) :=
      signsFrom_thin (solid_cons hs).2 h (fun h => by cases h) (fun h => absurd rfl h)
    rw [thin, signsFrom, shed_words, shed, closeAhead_signsFrom]
    split
    -- where a parenthesis is taken away, what stood before it must not join what stands behind it
    · rename_i hdrop
      have hhead := head?_of_dropped hdrop
      rw [signsFrom_cut ?_ ?_, ih]
      · intro hg
        rw [head?_thin hhead, ← beyond?_of_head? hhead]
        simpa [fitsOperator] using (hglued hg).2.2
      · intro hl c hc
        rw [head?_thin hhead, ← beyond?_of_head? hhead] at hc
        have := hletters hl
        rwa [fitsLetter, hc] at this
    · rw [signsFrom, ih]
  | operator a :: gs, hs, h, glued, letters, _, _, due => by
    rw [spaced, Bool.and_eq_true] at h
    have ih : signsFrom true [] (thin true due gs) = shed due (signsFrom true [] gs) :=
      signsFrom_thin (solid_cons hs).2 h.2 (fun _ => ⟨rfl, hollow_of_solid hs, h.1⟩) (fun h => absurd rfl h) due
    rw [thin, signsFrom, signsFrom, ih, shed_words, shed]
  | other c :: gs, hs, h, glued, letters, _, _, due => by
    rw [spaced, Bool.and_eq_true, Bool.or_eq_true] at h
    have hgs := (solid_cons hs).2
    rw [thin, signsFrom, signsFrom]
    split
    · rw [shed_words, signsFrom_thin hgs h.2 (fun h => by cases h) (fun h => absurd rfl h)]
    · rename_i hc
      exact signsFrom_thin hgs h.2 (fun h => by cases h) (fun _ => h.1.resolve_left hc) due

/-! ## Thinning blurs what is not spaced -/

/-- The letters of the words `ws`, which have been cut off, and of the one that has begun have run together. -/
structure Carries (ws : List String) (letters letters' : List Char) : Prop where
  text : String.ofList letters'.reverse = ws.foldr (· ++ ·) "" ++ String.ofList letters.reverse
  empty : letters' = [] → ws = [] ∧ letters = []

namespace Carries

theorem same (letters : List Char) : Carries [] letters letters := ⟨by simp, fun h => ⟨rfl, h⟩⟩

theorem letter {ws : List String} {letters letters' : List Char} (h : Carries ws letters letters') (c : Char) :
    Carries ws (c :: letters) (c :: letters') := by
  refine ⟨?_, fun h => by cases h⟩
  rw [List.reverse_cons, List.reverse_cons, String.ofList_append, String.ofList_append, h.text, String.append_assoc]

theorem foldr_finished (letters : List Char) : ∀ ws : List String,
    (ws ++ finished letters).foldr (· ++ ·) "" = ws.foldr (· ++ ·) "" ++ String.ofList letters.reverse
  | [] => by
    unfold finished
    cases letters <;> simp
  | w :: ws => by
    rw [List.cons_append, List.foldr_cons, foldr_finished letters ws, List.foldr_cons, String.append_assoc]

theorem cut {ws : List String} {letters letters' : List Char} (h : Carries ws letters letters') :
    Carries (ws ++ finished letters) [] letters' := by
  refine ⟨by rw [foldr_finished, h.text]; simp, fun hl => ?_⟩
  obtain ⟨rfl, rfl⟩ := h.empty hl
  exact ⟨rfl, rfl⟩

theorem blurs {ws : List String} {letters letters' : List Char} (h : Carries ws letters letters') {k k' : List Sign}
    (hk : Sign.Blurs k k') :
    Sign.Blurs (ws.map .word ++ ((finished letters).map .word ++ k)) ((finished letters').map .word ++ k') := by
  have hcut := h.cut
  rw [← List.append_assoc, ← List.map_append]
  revert hcut
  cases ws ++ finished letters with
  | nil =>
    intro hcut
    have hnil : letters' = [] := by simpa using hcut.text
    rw [hnil]
    exact hk
  | cons v vs =>
    intro hcut
    have hne : letters'.isEmpty = false := by
      cases letters' with
      | nil => cases (hcut.empty rfl).1
      | cons c letters' => rfl
    have htext : String.ofList letters'.reverse = (v :: vs).foldr (· ++ ·) "" := by
      rw [hcut.text]
      simp
    rw [finished, hne, if_neg Bool.false_ne_true, htext]
    exact hk.join v vs

end Carries

/-- **Thinning sheds signs, and blurs them** where glyphs are not spaced. -/
theorem blurs_thin : ∀ (gs : List Glyph) {due glued glued' : Bool} {letters letters' : List Char} {ws : List String},
    (glued = true → glued' = true) → Carries ws letters letters' →
    Sign.Blurs (ws.map .word ++ shed due (signsFrom glued letters gs)) (signsFrom glued' letters' (thin glued due gs))
  | [], due, _, _, letters, letters', ws, _, h => by
    have hshed := shed_words due [] (finished letters)
    rw [List.append_nil] at hshed
    rw [thin, signsFrom, signsFrom, hshed, shed, ← List.append_nil ((finished letters').map Sign.word)]
    exact h.blurs .nil
  | opens :: gs, due, glued, glued', letters, letters', ws, hglued, h => by
    rw [thin, signsFrom, shed_words, shed, closeAhead_signsFrom]
    split
    -- the parenthesis cuts a word in the signs, and is gone from the glyphs
    · rw [← List.append_assoc, ← List.map_append]
      exact blurs_thin gs (fun h => by cases h) h.cut
    · rw [signsFrom]
      exact h.blurs (.opens hglued (blurs_thin gs id (.same [])))
  | closes :: gs, due, glued, glued', letters, letters', ws, hglued, h => by
    rw [thin, signsFrom, shed_words, shed, closeAhead_signsFrom]
    split
    · rw [← List.append_assoc, ← List.map_append]
      exact blurs_thin gs (fun h => by cases h) h.cut
    · rw [signsFrom]
      exact h.blurs (.closes (blurs_thin gs id (.same [])))
  | operator a :: gs, due, glued, glued', letters, letters', ws, _, h => by
    rw [thin, signsFrom, shed_words, shed, signsFrom]
    exact h.blurs (.word (blurs_thin gs id (.same [])))
  | other c :: gs, due, glued, glued', letters, letters', ws, _, h => by
    rw [thin, signsFrom, signsFrom]
    split
    · rw [shed_words]
      exact h.blurs (blurs_thin gs id (.same []))
    · exact blurs_thin gs id (h.letter c)

end Glyph
end Epistemic.Source
