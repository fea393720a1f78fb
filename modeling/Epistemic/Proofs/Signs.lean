import Epistemic.Proofs.Rounds
/-!
# Signs

The words and parentheses of a text in their order, each opening parenthesis with whether it is glued to an operator.
Balanced signs are those of exactly one sequence of forms.  Shedding takes away each glued parenthesis before which no
other opens, with the last one that closes before the next that opens, which is a round of the forms
(`shed_signs`).
-/
namespace Epistemic.Source

/-- A word or a parenthesis. -/
inductive Sign where
  | word (text : String)
  | opens (glued : Bool)
  | closes
  deriving DecidableEq, Repr

namespace Forms

/-- The signs of forms. -/
def signs : Forms → List Sign
  | nil => []
  | leaf w r => .word w :: r.signs
  | list g i r => .opens g :: (i.signs ++ .closes :: r.signs)

theorem signs_before (ws : List String) (f : Forms) : (before ws f).signs = ws.map .word ++ f.signs := by
  induction ws with
  | nil => rfl
  | cons w ws ih => exact congrArg (Sign.word w :: ·) ih

theorem signs_of_no_lists {f : Forms} (h : f.lists = false) : f.signs = f.trail.map .word := by
  conv => lhs; rw [eq_before_trail h, signs_before]
  exact List.append_nil _

theorem signs_followedBy : ∀ (f : Forms) (ws : List String), (f.followedBy ws).signs = f.signs ++ ws.map .word
  | nil, ws => by rw [followedBy, signs_before]; simp [signs]
  | leaf w r, ws => by rw [followedBy, signs, signs, signs_followedBy r ws, List.cons_append]
  | list g i r, ws => by
    rw [followedBy, signs, signs, signs_followedBy r ws]
    simp only [List.cons_append, List.append_assoc]

/-- The forms of signs are determined, whatever closes behind them. -/
theorem signs_inj : ∀ {f g : Forms} {k l : List Sign}, (∀ s ∈ k.head?, s = .closes) → (∀ s ∈ l.head?, s = .closes) →
    f.signs ++ k = g.signs ++ l → f = g ∧ k = l
  | nil, nil, k, l, _, _, h => ⟨rfl, h⟩
  | nil, leaf w r, k, l, hk, _, h => by
    have := hk (.word w) (by rw [show k = _ from h]; rfl)
    cases this
  | nil, list g i r, k, l, hk, _, h => by
    have := hk (.opens g) (by rw [show k = _ from h]; rfl)
    cases this
  | leaf w r, nil, k, l, _, hl, h => by
    have := hl (.word w) (by rw [show l = _ from h.symm]; rfl)
    cases this
  | list g i r, nil, k, l, _, hl, h => by
    have := hl (.opens g) (by rw [show l = _ from h.symm]; rfl)
    cases this
  | leaf w r, leaf v q, k, l, hk, hl, h => by
    simp only [signs, List.cons_append, List.cons.injEq, Sign.word.injEq] at h
    obtain ⟨rfl, hkl⟩ := signs_inj hk hl h.2
    exact ⟨by rw [h.1], hkl⟩
  | leaf w r, list g i q, k, l, _, _, h => by simp [signs] at h
  | list g i r, leaf w q, k, l, _, _, h => by simp [signs] at h
  | list g i r, list g' i' r', k, l, hk, hl, h => by
    simp only [signs, List.cons_append, List.append_assoc, List.cons.injEq, Sign.opens.injEq] at h
    obtain ⟨rfl, hrest⟩ := signs_inj (by simp) (by simp) h.2
    obtain ⟨rfl, hkl⟩ := signs_inj hk hl (List.cons.inj hrest).2
    exact ⟨by rw [h.1], hkl⟩

end Forms

/-- How deep the signs end if they begin at some depth, unless too many are closed. -/
def signDepthFrom : Nat → List Sign → Option Nat
  | d, [] => some d
  | d, .word _ :: s => signDepthFrom d s
  | d, .opens _ :: s => signDepthFrom (d + 1) s
  | d, .closes :: s => if d = 0 then none else signDepthFrom (d - 1) s

theorem signDepthFrom_words (d : Nat) (k : List Sign) : ∀ ws : List String,
    signDepthFrom d (ws.map .word ++ k) = signDepthFrom d k
  | [] => rfl
  | _ :: ws => signDepthFrom_words d k ws

/-- The signs of forms with a closing parenthesis between each and the next. -/
def stacked : List Forms → List Sign
  | [] => []
  | [f] => f.signs
  | f :: g :: fs => f.signs ++ .closes :: stacked (g :: fs)

theorem stacked_leaf (w : String) (f : Forms) (fs : List Forms) :
    stacked (.leaf w f :: fs) = .word w :: stacked (f :: fs) := by
  cases fs <;> rfl

/-- Signs that close all that is open are those of forms. -/
theorem exists_stacked : ∀ {s : List Sign} {d : Nat}, signDepthFrom d s = some 0 →
    ∃ f fs, fs.length = d ∧ s = stacked (f :: fs)
  | [], d, h => by
    cases h
    exact ⟨.nil, [], rfl, rfl⟩
  | .word w :: s, d, h => by
    obtain ⟨f, fs, hd, hs⟩ := exists_stacked (s := s) h
    exact ⟨.leaf w f, fs, hd, by rw [stacked_leaf, hs]⟩
  | .opens g :: s, d, h => by
    obtain ⟨i, fs, hd, hs⟩ := exists_stacked (s := s) h
    cases fs with
    | nil => cases hd
    | cons f fs =>
      refine ⟨.list g i f, fs, Nat.succ.inj hd, ?_⟩
      rw [hs]
      cases fs with
      | nil => rfl
      | cons e fs => simp only [stacked, Forms.signs, List.cons_append, List.append_assoc]
  | .closes :: s, d, h => by
    rw [signDepthFrom] at h
    split at h
    · cases h
    · obtain ⟨f, fs, hd, hs⟩ := exists_stacked h
      exact ⟨.nil, f :: fs, by rw [List.length_cons]; omega, by rw [hs]; rfl⟩

/-- **Balanced signs are those of exactly one sequence of forms.** -/
theorem exists_forms {s : List Sign} (h : signDepthFrom 0 s = some 0) :
    ∃ f : Forms, f.signs = s ∧ ∀ g : Forms, g.signs = s → g = f := by
  obtain ⟨f, fs, hlength, hs⟩ := exists_stacked h
  have hnil := List.eq_nil_of_length_eq_zero hlength
  subst hnil
  refine ⟨f, hs.symm, fun g hg => ?_⟩
  refine (Forms.signs_inj (k := []) (l := []) (by simp) (by simp) ?_).1
  rw [hg, hs]
  rfl

/-! ## Shedding -/

/-- Whether a list is closed before another is opened. -/
def closeAhead : List Sign → Bool
  | [] => false
  | .word _ :: s => closeAhead s
  | .opens _ :: _ => false
  | .closes :: _ => true

/-- Takes away each glued parenthesis before which no other opens, with the last one that closes before the next that
opens; `due` says whether that one is still to come. -/
def shed : (due : Bool) → List Sign → List Sign
  | _, [] => []
  | due, .word w :: s => .word w :: shed due s
  | due, .closes :: s => if due && !closeAhead s then shed false s else .closes :: shed due s
  | _, .opens g :: s => if g && closeAhead s then shed true s else .opens g :: shed false s

/-- How many parentheses are taken away. -/
def sheds : List Sign → Nat
  | [] => 0
  | .word _ :: s => sheds s
  | .closes :: s => sheds s
  | .opens g :: s => sheds s + if g && closeAhead s then 1 else 0

theorem shed_words (due : Bool) (k : List Sign) : ∀ ws : List String,
    shed due (ws.map .word ++ k) = ws.map .word ++ shed due k
  | [] => rfl
  | w :: ws => congrArg (Sign.word w :: ·) (shed_words due k ws)

theorem closeAhead_signs (k : List Sign) : ∀ f : Forms,
    closeAhead (f.signs ++ k) = if f.lists then false else closeAhead k
  | .nil => rfl
  | .leaf _ r => closeAhead_signs k r
  | .list _ _ _ => rfl

theorem closeAhead_inside (i : Forms) (k : List Sign) : closeAhead (i.signs ++ .closes :: k) = !i.lists := by
  rw [closeAhead_signs]
  cases i.lists <;> rfl

theorem shed_opens {g : Bool} {s : List Sign} (h : (g && closeAhead s) = false) :
    shed false (.opens g :: s) = .opens g :: shed false s := by
  rw [shed, h, if_neg Bool.false_ne_true]

theorem closeAhead_words (k : List Sign) : ∀ ws : List String, closeAhead (ws.map .word ++ k) = closeAhead k
  | [] => rfl
  | _ :: ws => closeAhead_words k ws

theorem sheds_words (k : List Sign) : ∀ ws : List String, sheds (ws.map .word ++ k) = sheds k
  | [] => rfl
  | _ :: ws => sheds_words k ws

theorem sheds_signs (k : List Sign) : ∀ f : Forms, sheds (f.signs ++ k) = f.ready + sheds k
  | .nil => by simp [Forms.signs, Forms.ready]
  | .leaf _ r => sheds_signs k r
  | .list g i r => by
    simp only [Forms.signs, List.cons_append, List.append_assoc, sheds, closeAhead_inside, Forms.ready]
    rw [sheds_signs _ i, sheds, sheds_signs k r]
    omega

/-- What shedding leaves behind a list, by whether the parenthesis that closes it is passed. -/
theorem shed_behind {r : Forms} {k : List Sign} (g : Bool) (i : Forms)
    (hr : shed false (r.signs ++ k) = r.settle.signs ++
      if r.spills then shed true (.closes :: (r.trail.map .word ++ k)) else shed false k) :
    (if Forms.moves g i then shed true (.closes :: (r.signs ++ k)) else shed false (r.signs ++ k)) =
      (Forms.behind g i r).signs ++ if (Forms.list g i r).spills
        then shed true (.closes :: ((Forms.list g i r).trail.map .word ++ k)) else shed false k := by
  have hspills : (Forms.list g i r).spills = if r.lists then r.spills else Forms.moves g i := rfl
  have htrail : (Forms.list g i r).trail = r.trail := rfl
  rw [hspills, htrail, Forms.behind]
  cases hl : r.lists with
  | true =>
    have hshed : shed true (.closes :: (r.signs ++ k)) = shed false (r.signs ++ k) := by
      rw [shed, closeAhead_signs, hl]
      rfl
    rw [hshed, ite_self, Bool.true_or, if_pos rfl, if_pos rfl, hr]
  | false =>
    rw [Forms.spills_of_no_lists hl, if_neg Bool.false_ne_true] at hr
    cases Forms.moves g i with
    | true => rw [if_pos rfl, Forms.signs_of_no_lists hl]; rfl
    | false => exact hr

/-- **Shedding settles forms**: behind them, what they spill is passed by the parenthesis that closes before it. -/
theorem shed_signs_append : ∀ (f : Forms) (k : List Sign), shed false (f.signs ++ k) = f.settle.signs ++
    if f.spills then shed true (.closes :: (f.trail.map .word ++ k)) else shed false k
  | .nil, _ => rfl
  | .leaf w r, k => by
    have ih := shed_signs_append r k
    rw [Forms.signs, List.cons_append, shed, ih, Forms.settle, Forms.signs, List.cons_append, Forms.spills,
      Forms.trail]
    cases hl : r.lists with
    | true => rw [if_pos rfl]
    | false => rw [Forms.spills_of_no_lists hl]; rfl
  | .list g i r, k => by
    have hbehind := shed_behind g i (shed_signs_append r k)
    cases hg : g && !i.lists with
    | true =>
      rw [Bool.and_eq_true, Bool.not_eq_true'] at hg
      obtain ⟨rfl, hi⟩ := hg
      have hmoves : Forms.moves true i = true := by rw [Forms.moves, hi]; rfl
      rw [hmoves, if_pos rfl] at hbehind
      rw [Forms.settle_taken hi, Forms.signs_before, List.append_assoc, ← hbehind, ← shed_words, Forms.signs,
        Forms.signs_of_no_lists hi, List.cons_append, List.append_assoc, shed, List.cons_append, closeAhead_words]
      rfl
    | false =>
      -- the list stays, and what its inside spills passes the parenthesis that closes it
      have hmoves : Forms.moves g i = i.spills := by
        unfold Forms.moves
        cases hl : i.lists with
        | true => rfl
        | false =>
          rw [hl, Bool.not_false, Bool.and_true] at hg
          rw [hg, Forms.spills_of_no_lists hl]
          rfl
      have hopen : (g && closeAhead (i.signs ++ .closes :: (r.signs ++ k))) = false := by
        rw [closeAhead_inside, hg]
      have hi : shed false (i.signs ++ .closes :: (r.signs ++ k)) = i.settle.signs ++ .closes ::
          (i.spilled.map .word ++ ((Forms.behind g i r).signs ++ if (Forms.list g i r).spills
            then shed true (.closes :: ((Forms.list g i r).trail.map .word ++ k)) else shed false k)) := by
        rw [shed_signs_append i, ← hbehind, hmoves, Forms.spilled]
        cases i.spills with
        | true =>
          rw [if_pos rfl, if_pos rfl, if_pos rfl, shed, closeAhead_words, ← shed_words]
          rfl
        | false => rfl
      rw [Forms.settle_left hg, Forms.signs, Forms.signs, Forms.signs_before, List.cons_append, List.append_assoc,
        List.cons_append, shed_opens hopen, hi]
      simp only [List.cons_append, List.append_assoc]

/-- **Shedding is a round.** -/
theorem shed_signs (f : Forms) : shed false f.signs = f.round.signs := by
  have h := shed_signs_append f []
  rw [List.append_nil, List.append_nil] at h
  rw [h, Forms.round, Forms.signs_followedBy, Forms.spilled]
  cases f.spills with
  | false => rfl
  | true =>
    have hwords := closeAhead_words [] f.trail
    rw [List.append_nil] at hwords
    have hshed := shed_words false [] f.trail
    rw [List.append_nil] at hshed
    rw [if_pos rfl, if_pos rfl, shed, hwords, hshed]
    simp [closeAhead, shed]

/-! ## Words that run together -/

/-- Signs of which words have run together, or parentheses have been glued to the words before them. -/
inductive Sign.Blurs : List Sign → List Sign → Prop
  | nil : Blurs [] []
  | word {w : String} {s s' : List Sign} (h : Blurs s s') : Blurs (.word w :: s) (.word w :: s')
  | fuse {u v : String} {s s' : List Sign} (h : Blurs s (.word v :: s')) : Blurs (.word u :: s) (.word (u ++ v) :: s')
  | opens {g g' : Bool} {s s' : List Sign} (hg : g = true → g' = true) (h : Blurs s s') :
      Blurs (.opens g :: s) (.opens g' :: s')
  | closes {s s' : List Sign} (h : Blurs s s') : Blurs (.closes :: s) (.closes :: s')

/-- Words that run together are one. -/
theorem Sign.Blurs.join {k k' : List Sign} (h : Blurs k k') : ∀ (w : String) (ws : List String),
    Blurs ((w :: ws).map .word ++ k) (.word ((w :: ws).foldr (· ++ ·) "") :: k')
  | w, [] => by
    rw [List.foldr_cons, List.foldr_nil, String.append_empty]
    exact .word h
  | _, v :: vs => .fuse (Sign.Blurs.join h v vs)

/-- **Forms blur as their signs do**, where no word stands behind them. -/
theorem Forms.exists_blurs : ∀ {f : Forms} {k s : List Sign}, (∀ w, k.head? ≠ some (.word w)) →
    Sign.Blurs (f.signs ++ k) s → ∃ f' k', s = f'.signs ++ k' ∧ f.Blurs f' ∧ Sign.Blurs k k'
  | nil, _, s, _, h => ⟨nil, s, rfl, .nil, h⟩
  | leaf u r, k, s, hk, h => by
    cases h with
    | word h =>
      obtain ⟨r', k', rfl, hr, hkk⟩ := exists_blurs hk h
      exact ⟨leaf u r', k', rfl, .leaf hr, hkk⟩
    | @fuse _ v _ s' h =>
      obtain ⟨r', k', heq, hr, hkk⟩ := exists_blurs hk h
      cases r' with
      | nil =>
        -- then the word that runs on would stand behind the forms
        have hword : k' = .word v :: s' := heq.symm
        rw [hword] at hkk
        cases hkk with
        | word _ => exact absurd rfl (hk v)
        | @fuse u _ _ _ _ => exact absurd rfl (hk u)
      | leaf w r'' =>
        obtain ⟨hw, hs⟩ := List.cons.inj heq
        cases hw
        exact ⟨leaf (u ++ v) r'', k', by rw [hs]; rfl, .fuse hr, hkk⟩
      | list g i r'' => cases (List.cons.inj heq).1
  | list g i r, k, s, hk, h => by
    rw [signs, List.cons_append, List.append_assoc, List.cons_append] at h
    cases h with
    | @opens _ g' _ s' hg h =>
      obtain ⟨i', k₁, rfl, hi, hrest⟩ := exists_blurs (by simp) h
      cases hrest with
      | @closes _ k₂ hrest =>
        obtain ⟨r', k', rfl, hr, hkk⟩ := exists_blurs hk hrest
        refine ⟨list g' i' r', k', ?_, .list hg hi hr, hkk⟩
        simp only [signs, List.cons_append, List.append_assoc]

theorem Forms.lightens_of_blurs {f : Forms} {s : List Sign} (h : Sign.Blurs f.signs s) :
    ∃ f' : Forms, f'.signs = s ∧ Lightens f.splice f'.splice := by
  rw [← List.append_nil f.signs] at h
  obtain ⟨f', k', rfl, hf, hk⟩ := exists_blurs (by simp) h
  cases hk
  exact ⟨f', (List.append_nil _).symm, hf.lightens⟩

/-! ## Glue -/

/-- Whether every glued parenthesis stands right behind a word. -/
def glueOk : (word : Bool) → List Sign → Bool
  | _, [] => true
  | _, .word _ :: s => glueOk true s
  | _, .closes :: s => glueOk false s
  | word, .opens g :: s => (!g || word) && glueOk false s

theorem glueOk_words {k : List Sign} (h : ∀ word, glueOk word k = true) : ∀ (ws : List String) (word : Bool),
    glueOk word (ws.map .word ++ k) = true
  | [], word => h word
  | _ :: ws, _ => glueOk_words h ws true

theorem glueOk_append : ∀ {s t : List Sign} {word : Bool}, glueOk word (s ++ t) = true → ∃ w, glueOk w t = true
  | [], _, word, h => ⟨word, h⟩
  | .word _ :: s, _, _, h => glueOk_append (s := s) h
  | .closes :: s, _, _, h => glueOk_append (s := s) h
  | .opens g :: s, _, _, h => by
    rw [List.cons_append, glueOk, Bool.and_eq_true] at h
    exact glueOk_append h.2

theorem attached_of_glueOk : ∀ {f : Forms} {word : Bool} {k : List Sign}, glueOk word (f.signs ++ k) = true →
    f.attached word = true
  | .nil, _, _, _ => rfl
  | .leaf _ r, _, _, h => attached_of_glueOk (f := r) h
  | .list g i r, _, k, h => by
    rw [Forms.signs, List.cons_append, List.append_assoc, List.cons_append, glueOk, Bool.and_eq_true] at h
    obtain ⟨w, hr⟩ := glueOk_append h.2
    rw [Forms.attached, h.1, attached_of_glueOk h.2, attached_of_glueOk (f := r) hr]
    rfl

end Epistemic.Source
