import Epistemic.Proofs.Parentheses
/-!
# Glyphs

A text with properly closed brackets is made of parentheses, of operators in their brackets, and of other characters.
Where no operator has an empty pair of parentheses behind it, a pass of the rule for the parentheses behind operators
thins its glyphs: each parenthesis glued to an operator before which no other opens is taken away, with the last one
that closes before the next that opens (`passes_spell`).
-/
namespace Epistemic.Source

/-- A parenthesis, an operator with what stands in its brackets, or another character. -/
inductive Glyph where
  | opens
  | closes
  | operator (agents : List Char)
  | other (char : Char)
  deriving DecidableEq, Repr

namespace Glyph

/-- A glyph as it is written. -/
def chars : Glyph → List Char
  | opens => ['(']
  | closes => [')']
  | operator a => '[' :: (a ++ [']'])
  | other c => [c]

/-- Whether there is something in the brackets of an operator, and no mark in it or among other characters. -/
def proper : Glyph → Bool
  | operator a => !a.isEmpty && a.all fun c => (mark? c).isNone
  | other c => (mark? c).isNone
  | _ => true

/-- Glyphs as they are written. -/
def spell : List Glyph → List Char
  | [] => []
  | g :: gs => g.chars ++ spell gs

/-- Whether the first parentheses behind closing ones are an empty pair. -/
def hollow : List Glyph → Bool
  | closes :: gs => hollow gs
  | opens :: gs => gs.head? == some closes
  | _ => false

/-- Whether glyphs are proper and no operator has an empty pair of parentheses behind it. -/
def solid : List Glyph → Bool
  | [] => true
  | operator a :: gs => (operator a).proper && !hollow gs && solid gs
  | other c :: gs => (other c).proper && solid gs
  | opens :: gs => solid gs
  | closes :: gs => solid gs

/-! ## Thinning -/

/-- Whether a list is closed before another is opened. -/
def closesAhead : List Glyph → Bool
  | [] => false
  | opens :: _ => false
  | closes :: _ => true
  | operator _ :: gs => closesAhead gs
  | other _ :: gs => closesAhead gs

/-- Takes away each parenthesis glued to an operator before which no other opens, with the last one that closes before
the next that opens; `due` says whether that one is still to come. -/
def thin : (glued due : Bool) → List Glyph → List Glyph
  | _, _, [] => []
  | glued, _, opens :: gs => if glued && closesAhead gs then thin false true gs else opens :: thin false false gs
  | _, due, closes :: gs => if due && !closesAhead gs then thin false false gs else closes :: thin false due gs
  | _, due, operator a :: gs => operator a :: thin true due gs
  | _, due, other c :: gs => other c :: thin false due gs

/-- How many parentheses are taken away. -/
def thins : (glued : Bool) → List Glyph → Nat
  | _, [] => 0
  | glued, opens :: gs => thins false gs + if glued && closesAhead gs then 1 else 0
  | _, closes :: gs => thins false gs
  | _, operator _ :: gs => thins true gs
  | _, other _ :: gs => thins false gs

theorem head?_of_not_closesAhead {gs : List Glyph} (h : closesAhead gs = false) : gs.head? ≠ some closes := by
  cases gs with
  | nil => simp
  | cons g gs =>
    rintro hg
    cases hg
    cases h

theorem head?_of_dropped {gs : List Glyph} {due : Bool} (h : (due && !closesAhead gs) = true) :
    gs.head? ≠ some closes := by
  rw [Bool.and_eq_true, Bool.not_eq_true'] at h
  exact head?_of_not_closesAhead h.2

/-- What comes first stays so, unless it is taken away. -/
theorem head?_thin {gs : List Glyph} (h : gs.head? ≠ some closes) (due : Bool) :
    (thin false due gs).head? = gs.head? := by
  cases gs with
  | nil => rfl
  | cons g gs =>
    cases g with
    | opens => rfl
    | closes => exact absurd rfl h
    | operator a => rfl
    | other c => rfl

theorem head?_of_hollow {gs : List Glyph} (h : hollow (opens :: gs) = false) : gs.head? ≠ some closes := by
  simpa [hollow] using h

theorem hollow_thin : ∀ {gs : List Glyph}, hollow gs = false → ∀ glued due, hollow (thin glued due gs) = false
  | [], _, _, _ => rfl
  | operator _ :: _, _, _, _ => rfl
  | other _ :: _, _, _, _ => rfl
  | closes :: gs, h, glued, due => by
    have h : hollow gs = false := h
    rw [thin]
    split
    · exact hollow_thin h false false
    · exact hollow_thin h false due
  | opens :: gs, h, glued, due => by
    have hhead := head?_of_hollow h
    rw [thin]
    split
    · rename_i hdrop
      -- the list holds no other, so that it begins with neither kind of parenthesis
      rw [Bool.and_eq_true] at hdrop
      cases gs with
      | nil => cases hdrop.2
      | cons g gs =>
        cases g with
        | opens => cases hdrop.2
        | closes => exact absurd rfl hhead
        | operator a => rfl
        | other c => rfl
    · rw [hollow, head?_thin hhead]
      exact h

theorem solid_cons : ∀ {g : Glyph} {gs : List Glyph}, solid (g :: gs) = true → g.proper = true ∧ solid gs = true
  | opens, _, h => ⟨rfl, h⟩
  | closes, _, h => ⟨rfl, h⟩
  | operator a, gs, h => by
    rw [solid, Bool.and_eq_true, Bool.and_eq_true] at h
    exact ⟨h.1.1, h.2⟩
  | other c, gs, h => by
    rw [solid, Bool.and_eq_true] at h
    exact h

theorem hollow_of_solid {a : List Char} {gs : List Glyph} (h : solid (operator a :: gs) = true) :
    hollow gs = false := by
  rw [solid, Bool.and_eq_true, Bool.and_eq_true, Bool.not_eq_true'] at h
  exact h.1.2

/-- **Solid glyphs stay solid.** -/
theorem solid_thin : ∀ {gs : List Glyph}, solid gs = true → ∀ glued due, solid (thin glued due gs) = true
  | [], _, _, _ => rfl
  | opens :: gs, h, glued, due => by
    have hgs := (solid_cons h).2
    rw [thin]
    split
    · exact solid_thin hgs false true
    · exact solid_thin hgs false false
  | closes :: gs, h, glued, due => by
    have hgs := (solid_cons h).2
    rw [thin]
    split
    · exact solid_thin hgs false false
    · exact solid_thin hgs false due
  | operator a :: gs, h, glued, due => by
    obtain ⟨ha, hgs⟩ := solid_cons h
    rw [thin, solid, ha, hollow_thin (hollow_of_solid h), solid_thin hgs]
    rfl
  | other c :: gs, h, glued, due => by
    obtain ⟨hc, hgs⟩ := solid_cons h
    rw [thin, solid, hc, solid_thin hgs]
    rfl

/-! ## Characters -/

theorem mem_chars_operator {a : List Char} (h : (operator a).proper = true) {c : Char} (hc : c ∈ a) :
    mark? c = none := by
  rw [proper, Bool.and_eq_true, List.all_eq_true] at h
  exact Option.isNone_iff_eq_none.1 (h.2 c hc)

theorem ne_nil_of_operator {a : List Char} (h : (operator a).proper = true) : a ≠ [] := by
  rintro rfl
  cases h

theorem mark?_of_other {c : Char} (h : (other c).proper = true) : mark? c = none := Option.isNone_iff_eq_none.1 h

theorem solid_append_right : ∀ {gs hs : List Glyph}, solid (gs ++ hs) = true → solid hs = true
  | [], _, h => h
  | _ :: gs, hs, h => @solid_append_right gs hs (solid_cons h).2

theorem spell_append : ∀ gs hs : List Glyph, spell (gs ++ hs) = spell gs ++ spell hs
  | [], _ => rfl
  | g :: gs, hs => by rw [List.cons_append, spell, spell, spell_append gs hs, List.append_assoc]

theorem spell_operator (a : List Char) (gs : List Glyph) :
    spell (operator a :: gs) = '[' :: (a ++ ']' :: spell gs) := by
  simp [spell, chars]

/-- Brackets close only where they were opened. -/
theorem brackets_spell : ∀ {gs : List Glyph}, solid gs = true → ']' ∉ (spell gs).takeWhile (· != '[')
  | [], _ => List.not_mem_nil
  | g :: gs, h => by
    obtain ⟨hg, hgs⟩ := solid_cons h
    have ih := brackets_spell hgs
    cases g with
    | opens => simpa [spell, chars] using ih
    | closes => simpa [spell, chars] using ih
    | operator a => simp [spell, chars]
    | other c =>
      have hc := ne_of_mark?_none (mark?_of_other hg)
      simpa [spell, chars, hc.2.2.1, Ne.symm hc.2.2.2] using ih

theorem open_not_mem_spell : ∀ {gs : List Glyph} {hs : List Glyph}, solid (gs ++ hs) = true → opens ∉ gs →
    '(' ∉ spell gs
  | [], _, _, _ => List.not_mem_nil
  | g :: gs, _, h, ho => by
    obtain ⟨hg, hgs⟩ := solid_cons h
    rw [List.mem_cons, not_or] at ho
    have ih := open_not_mem_spell hgs ho.2
    rw [spell, List.mem_append, not_or]
    refine ⟨?_, ih⟩
    cases g with
    | opens => exact absurd rfl ho.1
    | closes => simp [chars]
    | operator a =>
      simp only [chars, List.mem_cons, List.mem_append, List.not_mem_nil, or_false, not_or]
      exact ⟨by decide, fun hm => (ne_of_mark?_none (mem_chars_operator hg hm)).1 rfl, by decide⟩
    | other c => simpa [chars] using Ne.symm (ne_of_mark?_none (mark?_of_other hg)).1

theorem close_not_mem_spell : ∀ {gs : List Glyph}, solid gs = true → closesAhead gs = false →
    ')' ∉ (spell gs).takeWhile (· != '(')
  | [], _, _ => List.not_mem_nil
  | opens :: gs, _, _ => by simp [spell, chars]
  | closes :: gs, _, h => by cases h
  | operator a :: gs, h, hc => by
    obtain ⟨hg, hgs⟩ := solid_cons h
    have hopen : '(' ∉ '[' :: a := by
      rw [List.mem_cons, not_or]
      exact ⟨by decide, fun hm => (ne_of_mark?_none (mem_chars_operator hg hm)).1 rfl⟩
    rw [spell_operator, ← List.cons_append, takeWhile_append_cons hopen (by decide)]
    simp only [List.mem_append, List.mem_cons, not_or]
    refine ⟨⟨by decide, fun hm => ?_⟩, by decide, close_not_mem_spell hgs hc⟩
    exact (ne_of_mark?_none (mem_chars_operator hg hm)).2.1 rfl
  | other c :: gs, h, hc => by
    obtain ⟨hg, hgs⟩ := solid_cons h
    have hne := ne_of_mark?_none (mark?_of_other hg)
    have ih := close_not_mem_spell hgs hc
    simpa [spell, chars, hne.1, Ne.symm hne.2.1] using ih

/-! ## A pass -/

/-- The last parenthesis that closes before the next that opens. -/
theorem closesAhead_split : ∀ {gs : List Glyph}, closesAhead gs = true →
    ∃ inner rest, gs = inner ++ closes :: rest ∧ opens ∉ inner ∧ closesAhead rest = false
  | [], h => by cases h
  | opens :: _, h => by cases h
  | closes :: gs, _ => by
    cases hc : closesAhead gs with
    | false => exact ⟨[], gs, rfl, List.not_mem_nil, hc⟩
    | true =>
      obtain ⟨inner, rest, rfl, ho, hr⟩ := closesAhead_split hc
      exact ⟨closes :: inner, rest, rfl, by simpa using ho, hr⟩
  | operator a :: gs, h => by
    obtain ⟨inner, rest, rfl, ho, hr⟩ := @closesAhead_split gs h
    exact ⟨operator a :: inner, rest, rfl, by simpa using ho, hr⟩
  | other c :: gs, h => by
    obtain ⟨inner, rest, rfl, ho, hr⟩ := @closesAhead_split gs h
    exact ⟨other c :: inner, rest, rfl, by simpa using ho, hr⟩

theorem closesAhead_append : ∀ {inner : List Glyph}, opens ∉ inner → ∀ rest : List Glyph,
    closesAhead (inner ++ closes :: rest) = true
  | [], _, _ => rfl
  | opens :: _, h, _ => absurd List.mem_cons_self h
  | closes :: _, _, _ => rfl
  | operator _ :: _, h, rest => closesAhead_append (fun hm => h (List.mem_cons_of_mem _ hm)) rest
  | other _ :: _, h, rest => closesAhead_append (fun hm => h (List.mem_cons_of_mem _ hm)) rest

theorem thin_due {rest : List Glyph} (hr : closesAhead rest = false) : ∀ {inner : List Glyph}, opens ∉ inner →
    ∀ glued : Bool, thin glued true (inner ++ closes :: rest) = inner ++ thin false false rest ∧
      thins glued (inner ++ closes :: rest) = thins false rest
  | [], _, _ => by
    rw [List.nil_append, thin, hr, thins]
    exact ⟨rfl, rfl⟩
  | opens :: _, h, _ => absurd List.mem_cons_self h
  | closes :: inner, h, glued => by
    have ho : opens ∉ inner := fun hm => h (List.mem_cons_of_mem _ hm)
    obtain ⟨h₁, h₂⟩ := thin_due hr ho false
    rw [List.cons_append, thin, closesAhead_append ho, h₁, thins, h₂]
    exact ⟨rfl, rfl⟩
  | operator a :: inner, h, glued => by
    obtain ⟨h₁, h₂⟩ := thin_due hr (fun hm => h (List.mem_cons_of_mem _ hm)) true
    rw [List.cons_append, thin, h₁, thins, h₂]
    exact ⟨rfl, rfl⟩
  | other c :: inner, h, glued => by
    obtain ⟨h₁, h₂⟩ := thin_due hr (fun hm => h (List.mem_cons_of_mem _ hm)) false
    rw [List.cons_append, thin, h₁, thins, h₂]
    exact ⟨rfl, rfl⟩

theorem spell_ne_nil : ∀ {gs : List Glyph}, gs ≠ [] → spell gs ≠ []
  | [], h => absurd rfl h
  | g :: gs, _ => by cases g <;> simp [spell, chars]

/-- An operator to which no list is glued that could be taken is passed over. -/
theorem thin_glued {gs : List Glyph} (h : ∀ hs, gs = opens :: hs → closesAhead hs = false) :
    thin true false gs = thin false false gs ∧ thins true gs = thins false gs := by
  cases gs with
  | nil => exact ⟨rfl, rfl⟩
  | cons g gs =>
    cases g with
    | opens =>
      have hgs := h gs rfl
      rw [thin, thin, thins, thins, hgs]
      exact ⟨rfl, rfl⟩
    | closes => exact ⟨rfl, rfl⟩
    | operator a => exact ⟨rfl, rfl⟩
    | other c => exact ⟨rfl, rfl⟩

theorem operatorParentheses_taken {a : List Char} {inner rest : List Glyph}
    (h : solid (operator a :: opens :: (inner ++ closes :: rest)) = true) (ho : opens ∉ inner)
    (hr : closesAhead rest = false) :
    operatorParentheses (spell (operator a :: opens :: (inner ++ closes :: rest))) =
      some (spell (operator a :: inner), spell rest) := by
  obtain ⟨ha, hopens⟩ := solid_cons h
  have hgs : solid (inner ++ closes :: rest) = true := hopens
  have hrest : solid rest = true := (solid_cons (solid_append_right hgs)).2
  have hbefore : '[' ∉ a := fun hm => (ne_of_mark?_none (mem_chars_operator ha hm)).2.2.1 rfl
  have hinner : inner ≠ [] := by
    rintro rfl
    exact head?_of_hollow (hollow_of_solid h) rfl
  have hbrackets := brackets_spell hgs
  rw [spell_append] at hbrackets
  have hspell : spell (operator a :: opens :: (inner ++ closes :: rest)) =
      '[' :: (a ++ ']' :: '(' :: (spell inner ++ ')' :: spell rest)) := by
    rw [spell_operator, spell, spell_append]
    rfl
  rw [hspell, operatorParentheses_append (ne_nil_of_operator ha) hbefore (spell_ne_nil hinner)
    (open_not_mem_spell hgs ho) (close_not_mem_spell hrest hr) hbrackets, spell_operator]

theorem operatorParentheses_passed {a : List Char} {gs : List Glyph} (h : solid (operator a :: gs) = true)
    (hstays : ∀ hs, gs = opens :: hs → closesAhead hs = false) :
    operatorParentheses (spell (operator a :: gs)) = none := by
  obtain ⟨ha, hgs⟩ := solid_cons h
  have hclose : ']' ∉ a := fun hm => (ne_of_mark?_none (mem_chars_operator ha hm)).2.2.2 rfl
  rw [Option.eq_none_iff_forall_ne_some]
  intro m hsome
  rw [spell_operator] at hsome
  obtain ⟨rest, htail, hmem⟩ := operatorParentheses_closed hclose (brackets_spell hgs) hsome
  cases gs with
  | nil => cases htail
  | cons g gs =>
    cases g with
    | opens =>
      have hrest : spell gs = rest := (List.cons.inj htail).2
      rw [← hrest] at hmem
      exact close_not_mem_spell (solid_cons hgs).2 (hstays gs rfl) hmem
    | closes => exact absurd (List.cons.inj htail).1 (by decide)
    | operator b => exact absurd (List.cons.inj htail).1 (by decide)
    | other c => exact (ne_of_mark?_none (mark?_of_other (solid_cons hgs).1)).1 (List.cons.inj htail).1

/-- **A pass thins glyphs.** -/
theorem passes_spell {gs : List Glyph} (h : solid gs = true) :
    Passes operatorParentheses (spell gs) (spell (thin false false gs)) (thins false gs) := by
  -- what is taken reaches to the next parenthesis that opens, so the induction is on the length
  induction hn : gs.length using Nat.strongRecOn generalizing gs with
  | _ n ih =>
    subst hn
    cases gs with
    | nil => exact .nil
    | cons g gs =>
      obtain ⟨hg, hgs⟩ := solid_cons h
      have hrest := ih gs.length (by simp) hgs rfl
      cases g with
      | opens => exact .keep (operatorParentheses_of_ne _ _ (by decide)) hrest
      | closes => exact .keep (operatorParentheses_of_ne _ _ (by decide)) hrest
      | other c => exact .keep (operatorParentheses_of_ne _ _ (ne_of_mark?_none (mark?_of_other hg)).2.2.1) hrest
      | operator a =>
        by_cases htaken : ∃ hs, gs = opens :: hs ∧ closesAhead hs = true
        · obtain ⟨hs, rfl, hahead⟩ := htaken
          obtain ⟨inner, rest, rfl, ho, hr⟩ := closesAhead_split hahead
          have hmatch := operatorParentheses_taken h ho hr
          obtain ⟨hthin, hthins⟩ := thin_due hr ho false
          have hlt : rest.length < (operator a :: opens :: (inner ++ closes :: rest)).length := by simp; omega
          have hafter : solid (inner ++ closes :: rest) = true := hgs
          have hpass := ih rest.length hlt (solid_cons (solid_append_right hafter)).2 rfl
          rw [thin, thin, thins, thins, hahead, Bool.true_and, if_pos rfl, if_pos rfl, hthin, hthins]
          have hnew : spell (operator a :: (inner ++ thin false false rest)) =
              spell (operator a :: inner) ++ spell (thin false false rest) := spell_append (operator a :: inner) _
          rw [hnew]
          exact .replace hmatch hpass
        · have hstays : ∀ hs, gs = opens :: hs → closesAhead hs = false := fun hs he => by
            cases hc : closesAhead hs with
            | false => rfl
            | true => exact absurd ⟨hs, he, hc⟩ htaken
          have hmatch := operatorParentheses_passed h hstays
          obtain ⟨hthin, hthins⟩ := thin_glued hstays
          have hopen : '[' ∉ a ++ [']'] := by
            rw [List.mem_append, not_or]
            exact ⟨fun hm => (ne_of_mark?_none (mem_chars_operator hg hm)).2.2.1 rfl, by decide⟩
          rw [thin, thins, hthin, hthins]
          exact .keep hmatch (hrest.keep_append operatorParentheses_of_ne hopen)

end Glyph
end Epistemic.Source
