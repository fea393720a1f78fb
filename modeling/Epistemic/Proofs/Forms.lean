import Epistemic.Tree
/-!
# Forms, and how words leave their lists

A text read as it stands is a sequence of words and lists, where a list is marked if it stands right behind an
operator.  Its direct reading splices such a list, innermost first, when it holds no list (`splice`).  A round takes
every marked list that holds none, but closes its place with the wrong parenthesis: along the lists that end with it,
each is closed before the words that follow its last list (`settle`), and these are spilled.  A round keeps the direct
reading exactly if no list that stays loses a word, and all rounds do so exactly if every such list ends as deep as the
lists reach that are spliced at its end (`orderly_iff_settle`).
-/
namespace Epistemic.Source

/-- A text in its order: words and lists, and whether a list is glued to an operator before it. -/
inductive Forms where
  | nil
  | leaf (word : String) (rest : Forms)
  | list (glued : Bool) (inside rest : Forms)
  deriving DecidableEq, Repr

namespace Forms

/-- The forms as they stand. -/
def trees : Forms → List Tree
  | nil => []
  | leaf w r => .word w :: r.trees
  | list _ i r => .list i.trees :: r.trees

/-- The direct reading: a glued list that holds no list is spliced, innermost first. -/
def splice : Forms → List Tree
  | nil => []
  | leaf w r => .word w :: r.splice
  | list g i r =>
    if g && i.splice.all (!·.isList) then i.splice ++ r.splice else .list i.splice :: r.splice

/-- How deep lists are nested in the forms if all of them are spliced. -/
def tall : Forms → Option Nat
  | nil => some 0
  | leaf _ r => r.tall
  | list g i r =>
    match (if g then i.tall else none), r.tall with
    | some m, some n => some (max (m + 1) n)
    | _, _ => none

/-- How deep lists are nested in a list that is spliced. -/
def height? (glued : Bool) (inside : Forms) : Option Nat := if glued then inside.tall else none

/-- How deep the lists reach that are spliced behind the last list that is kept, or at its end, where `n` is how deep
those before the forms reach. -/
def reachFrom (n : Nat) : Forms → Nat
  | nil => n
  | leaf _ r => r.reachFrom n
  | list g i r => r.reachFrom (match height? g i with
    | some m => max n (m + 1)
    | none => i.reachFrom 0)

/-- Whether the forms end with so many lists, each at the end of the one before, or with a list that is kept. -/
def endsDeep : Forms → Nat → Bool
  | _, 0 => true
  | nil, _ + 1 => false
  | leaf _ r, n + 1 => r.endsDeep (n + 1)
  | list g i nil, n + 1 => (height? g i).isNone || i.endsDeep n
  | list _ _ r, n + 1 => r.endsDeep (n + 1)

/-- Whether every list that is kept ends as deep as the lists reach that are spliced at its end. -/
def orderly : Forms → Bool
  | nil => true
  | leaf _ r => r.orderly
  | list g i r => ((height? g i).isSome || i.endsDeep (i.reachFrom 0)) && i.orderly && r.orderly

/-! ## A round -/

/-- Whether there is a list among the forms. -/
def lists : Forms → Bool
  | nil => false
  | leaf _ r => r.lists
  | list _ _ _ => true

/-- The words behind the last list. -/
def trail : Forms → List String
  | nil => []
  | leaf w r => if r.lists then r.trail else w :: r.trail
  | list _ _ r => r.trail

/-- Whether the words behind the last list are spilled: if that list is taken, or spills words itself. -/
def spills : Forms → Bool
  | nil => false
  | leaf _ r => r.spills
  | list g i r => if r.lists then r.spills else if i.lists then i.spills else g

/-- The words that are spilled. -/
def spilled (f : Forms) : List String := if f.spills then f.trail else []

/-- Words before forms. -/
def before (ws : List String) (f : Forms) : Forms := ws.foldr leaf f

/-- What a round leaves of the inside of a list, without the words that are spilled. -/
def settle : Forms → Forms
  | nil => nil
  | leaf w r => leaf w r.settle
  | list g i r =>
    let rest := if r.lists || !(if i.lists then i.spills else g) then r.settle else nil
    if g && !i.lists then before i.trail rest else list g i.settle (before i.spilled rest)

/-- How many words leave lists that are kept. -/
def lost : Forms → Nat
  | nil => 0
  | leaf _ r => r.lost
  | list g i r => (if (height? g i).isSome then 0 else i.spilled.length) + i.lost + r.lost

/-- Whether every glued list has a word right before it, where `word` says whether one stands before the forms. -/
def attached : (word : Bool) → Forms → Bool
  | _, nil => true
  | _, leaf _ r => attached true r
  | word, list g i r => (!g || word) && attached false i && attached false r

/-! ## Words only -/

theorem spills_of_no_lists : ∀ {f : Forms}, f.lists = false → f.spills = false
  | nil, _ => rfl
  | leaf _ r, h => spills_of_no_lists (f := r) h

theorem eq_before_trail : ∀ {f : Forms}, f.lists = false → f = before f.trail nil
  | nil, _ => rfl
  | leaf w r, h => by
    have hr : r.lists = false := h
    rw [trail, if_neg (by simp [hr]), before, List.foldr_cons, ← before, ← eq_before_trail hr]

@[simp] theorem tall_before (ws : List String) (f : Forms) : (before ws f).tall = f.tall := by
  induction ws with
  | nil => rfl
  | cons w ws ih => exact ih

@[simp] theorem reachFrom_before (ws : List String) (f : Forms) (n : Nat) :
    (before ws f).reachFrom n = f.reachFrom n := by
  induction ws with
  | nil => rfl
  | cons w ws ih => exact ih

@[simp] theorem orderly_before (ws : List String) (f : Forms) : (before ws f).orderly = f.orderly := by
  induction ws with
  | nil => rfl
  | cons w ws ih => exact ih

theorem splice_before (ws : List String) (f : Forms) : (before ws f).splice = ws.map .word ++ f.splice := by
  induction ws with
  | nil => rfl
  | cons w ws ih => exact congrArg (Tree.word w :: ·) ih

theorem tall_of_no_lists {f : Forms} (h : f.lists = false) : f.tall = some 0 := by
  rw [eq_before_trail h, tall_before]
  rfl

theorem reachFrom_of_no_lists {f : Forms} (h : f.lists = false) (n : Nat) : f.reachFrom n = n := by
  rw [eq_before_trail h, reachFrom_before]
  rfl

theorem splice_of_no_lists {f : Forms} (h : f.lists = false) : f.splice = f.trail.map .word := by
  conv => lhs; rw [eq_before_trail h, splice_before]
  exact List.append_nil _

/-! ## Lists in a round -/

/-- Whether words pass the end of a list: if it is taken, or spills words. -/
def moves (glued : Bool) (inside : Forms) : Bool := if inside.lists then inside.spills else glued

/-- What a round leaves behind a list. -/
def behind (glued : Bool) (inside rest : Forms) : Forms :=
  if rest.lists || !moves glued inside then rest.settle else nil

theorem settle_taken {i : Forms} (hi : i.lists = false) (r : Forms) :
    (list true i r).settle = before i.trail (behind true i r) := by
  simp [settle, behind, moves, hi]

theorem settle_left {g : Bool} {i : Forms} (h : (g && !i.lists) = false) (r : Forms) :
    (list g i r).settle = list g i.settle (before i.spilled (behind g i r)) := by
  simp only [settle, h, Bool.false_eq_true, if_false]
  rfl

/-- **Behind a list** the words of the rest are spilled if there is no other list and words pass its end; otherwise the
rest goes through the round by itself. -/
theorem behind_cases (g : Bool) (i r : Forms) :
    (behind g i r = r.settle ∧ (list g i r).spilled = r.spilled) ∨
    (r.lists = false ∧ behind g i r = nil ∧ (list g i r).spilled = r.trail) := by
  unfold behind spilled
  have hspills : (list g i r).spills = if r.lists then r.spills else moves g i := rfl
  rw [hspills]
  cases hr : r.lists with
  | true => exact .inl ⟨by simp, by simp [trail]⟩
  | false =>
    cases hm : moves g i with
    | true => exact .inr ⟨rfl, by simp, by simp [trail]⟩
    | false => exact .inl ⟨by simp, by simp [spills_of_no_lists hr]⟩

theorem tall_pos_of_lists : ∀ {f : Forms} {m : Nat}, f.lists = true → f.tall = some m → 1 ≤ m
  | leaf _ r, m, hl, h => tall_pos_of_lists (f := r) hl h
  | list g i r, m, _, h => by
    rw [tall] at h
    split at h
    · cases h
      omega
    · cases h

theorem tall_list (g : Bool) (i r : Forms) : (list g i r).tall =
    match height? g i, r.tall with
    | some m, some n => some (max (m + 1) n)
    | _, _ => none := rfl

theorem tall_of_height? {g : Bool} {i : Forms} {m : Nat} (h : height? g i = some m) : i.tall = some m := by
  cases g with
  | false => cases h
  | true => exact h

/-- **A round lowers what is spliced by one.** -/
theorem tall_settle : ∀ f : Forms, f.settle.tall = f.tall.map (· - 1)
  | nil => rfl
  | leaf _ r => tall_settle r
  | list g i r => by
    have hbehind : (behind g i r).tall = r.tall.map (· - 1) := by
      rcases behind_cases g i r with ⟨h, -⟩ | ⟨hr, h, -⟩
      · rw [h, tall_settle r]
      · rw [h, tall_of_no_lists hr]; rfl
    cases hg : g && !i.lists with
    | true =>
      rw [Bool.and_eq_true, Bool.not_eq_true'] at hg
      obtain ⟨rfl, hi⟩ := hg
      rw [settle_taken hi, tall_before, hbehind, tall_list, height?, if_pos rfl, tall_of_no_lists hi]
      cases r.tall with
      | none => rfl
      | some n =>
        simp only [Option.map_some, Option.some.injEq]
        omega
    | false =>
      rw [settle_left hg, tall_list, tall_list, tall_before, hbehind, height?, height?]
      cases g with
      | false => rfl
      | true =>
        have hi : i.lists = true := by simpa using hg
        rw [if_pos rfl, if_pos rfl, tall_settle i]
        cases hm : i.tall with
        | none => rfl
        | some m =>
          have hpos := tall_pos_of_lists hi hm
          cases r.tall with
          | none => rfl
          | some n =>
            simp only [Option.map_some, Option.some.injEq]
            omega

theorem height?_settle (g : Bool) (i : Forms) : height? g i.settle = (height? g i).map (· - 1) := by
  unfold height?
  cases g with
  | false => rfl
  | true => exact tall_settle i

/-- **The kinds of lists**: those that the round takes, those that a later one will, and those that are kept. -/
theorem list_cases (g : Bool) (i : Forms) :
    (g = true ∧ i.lists = false ∧ height? g i = some 0) ∨
    (((g && !i.lists) = false) ∧ ∃ m, height? g i = some (m + 1) ∧ height? g i.settle = some m) ∨
    (((g && !i.lists) = false) ∧ height? g i = none ∧ height? g i.settle = none) := by
  cases hg : g && !i.lists with
  | true =>
    rw [Bool.and_eq_true, Bool.not_eq_true'] at hg
    obtain ⟨rfl, hi⟩ := hg
    exact .inl ⟨rfl, hi, tall_of_no_lists hi⟩
  | false =>
    refine .inr ?_
    rw [height?_settle]
    cases hh : height? g i with
    | none => exact .inr ⟨rfl, rfl, rfl⟩
    | some m =>
      cases g with
      | false => cases hh
      | true =>
        have hi : i.lists = true := by simpa using hg
        obtain ⟨m, rfl⟩ : ∃ k, m = k + 1 := ⟨m - 1, by have := tall_pos_of_lists hi hh; omega⟩
        exact .inl ⟨rfl, m, rfl, by simp⟩

/-! ## Reach and depth -/

/-- **A round lowers the reach by one.** -/
theorem reachFrom_settle : ∀ (f : Forms) (n : Nat), f.settle.reachFrom (n - 1) = f.reachFrom n - 1
  | nil, _ => rfl
  | leaf _ r, n => reachFrom_settle r n
  | list g i r, n => by
    have hbehind : ∀ k, (behind g i r).reachFrom (k - 1) = r.reachFrom k - 1 := fun k => by
      rcases behind_cases g i r with ⟨h, -⟩ | ⟨hr, h, -⟩
      · rw [h, reachFrom_settle r k]
      · rw [h, reachFrom_of_no_lists hr]; rfl
    rcases list_cases g i with ⟨rfl, hi, hh⟩ | ⟨hg, m, hh, hs⟩ | ⟨hg, hh, hs⟩
    · rw [settle_taken hi, reachFrom_before, reachFrom, hh, ← hbehind]
      congr 1
      simp only
      omega
    · rw [settle_left hg, reachFrom, reachFrom, reachFrom_before, hh, hs, ← hbehind]
      congr 1
      simp only
      omega
    · rw [settle_left hg, reachFrom, reachFrom, reachFrom_before, hh, hs, ← hbehind]
      simp only
      rw [← reachFrom_settle i 0]

theorem reachFrom_of_tall : ∀ {f : Forms} {m : Nat}, f.tall = some m → ∀ n, f.reachFrom n = max n m
  | nil, m, h, n => by cases h; simp [reachFrom]
  | leaf _ r, m, h, n => reachFrom_of_tall (f := r) h n
  | list g i r, m, h, n => by
    rw [tall_list] at h
    split at h
    · rename_i a b ha hb
      cases h
      rw [reachFrom, ha, reachFrom_of_tall hb]
      simp only
      omega
    · cases h

/-- Words are spilled exactly if something that is spliced reaches to them. -/
theorem spills_iff_reach : ∀ {f : Forms}, f.lists = true → ∀ n, f.spills = true ↔ 1 ≤ f.reachFrom n
  | leaf _ r, h, n => spills_iff_reach (f := r) h n
  | list g i r, _, n => by
    rw [reachFrom]
    cases hr : r.lists with
    | true => rw [spills, hr, if_pos rfl]; exact spills_iff_reach hr _
    | false =>
      rw [spills, hr, if_neg (by simp), reachFrom_of_no_lists hr]
      cases hi : i.lists with
      | false =>
        rw [if_neg (by simp), height?, tall_of_no_lists hi]
        cases g with
        | true => exact ⟨fun _ => Nat.le_max_right n 1, fun _ => rfl⟩
        | false => simp [reachFrom_of_no_lists hi]
      | true =>
        rw [if_pos rfl, spills_iff_reach hi 0]
        cases hh : height? g i with
        | none => rfl
        | some m =>
          have hm := tall_of_height? hh
          have hpos := tall_pos_of_lists hi hm
          rw [reachFrom_of_tall hm]
          simp only
          omega

@[simp] theorem endsDeep_zero (f : Forms) : f.endsDeep 0 = true := by
  cases f with
  | nil => rfl
  | leaf w r => rfl
  | list g i r => cases r <;> rfl

theorem endsDeep_list {r : Forms} (hr : r ≠ nil) (g : Bool) (i : Forms) (n : Nat) :
    (list g i r).endsDeep (n + 1) = r.endsDeep (n + 1) := by
  cases r with
  | nil => exact absurd rfl hr
  | leaf w r => rfl
  | list g' i' r' => rfl

theorem eq_nil_of_trail {f : Forms} (hl : f.lists = false) (ht : f.trail = []) : f = nil := by
  rw [eq_before_trail hl, ht]
  rfl

@[simp] theorem endsDeep_before (ws : List String) (f : Forms) (n : Nat) : (before ws f).endsDeep n = f.endsDeep n := by
  cases n with
  | zero => simp
  | succ n =>
    induction ws with
    | nil => rfl
    | cons w ws ih => exact ih

/-- Forms that end with a word do not end with a list. -/
theorem endsDeep_of_trail : ∀ {f : Forms}, f.trail ≠ [] → ∀ n, f.endsDeep (n + 1) = false
  | nil, h, _ => absurd rfl h
  | leaf w r, h, n => by
    by_cases ht : r.trail = []
    · have hl : r.lists = false := by
        cases hl : r.lists with
        | false => rfl
        | true => rw [trail, if_pos hl] at h; exact absurd ht h
      rw [eq_nil_of_trail hl ht]
      rfl
    · exact endsDeep_of_trail (f := r) ht n
  | list g i r, h, n => by
    have hr : r ≠ nil := fun he => h (by rw [he]; rfl)
    rw [endsDeep_list hr]
    exact endsDeep_of_trail (f := r) h n

theorem endsDeep_of_no_lists {f : Forms} (h : f.lists = false) (n : Nat) : f.endsDeep (n + 1) = false := by
  rw [eq_before_trail h, endsDeep_before]
  rfl

theorem settle_ne_nil {f : Forms} (ha : attached false f = true) (hl : f.lists = true) : f.settle ≠ nil := by
  cases f with
  | nil => cases hl
  | leaf w r => simp [settle]
  | list g i r =>
    have hg : g = false := by
      cases g with
      | false => rfl
      | true => simp [attached] at ha
    rw [hg, settle_left (by rfl)]
    simp

theorem spills_of_tall {f : Forms} {m : Nat} (hl : f.lists = true) (h : f.tall = some m) : f.spills = true := by
  have hpos := tall_pos_of_lists hl h
  rw [spills_iff_reach hl 0, reachFrom_of_tall h]
  omega

theorem lost_kept {g : Bool} {i : Forms} (h : height? g i = none) (r : Forms) :
    (list g i r).lost = i.spilled.length + i.lost + r.lost := by
  rw [lost, h, Option.isSome_none, if_neg Bool.false_ne_true]

theorem lost_spliced {g : Bool} {i : Forms} {m : Nat} (h : height? g i = some m) (r : Forms) :
    (list g i r).lost = i.lost + r.lost := by
  rw [lost, h, Option.isSome_some, if_pos rfl, Nat.zero_add]

theorem before_ne_nil {ws : List String} {f : Forms} (h : ws ≠ [] ∨ f ≠ nil) : before ws f ≠ nil := by
  cases ws with
  | nil => exact h.resolve_left (fun h => h rfl)
  | cons w ws => exact Forms.noConfusion

theorem endsDeep_settle_last {g : Bool} {i : Forms} (hlost : (list g i nil).lost = 0)
    (ih : i.lists = true → i.trail = [] → ∀ n, i.settle.endsDeep n = i.endsDeep (n + 1)) (n : Nat) :
    (list g i nil).settle.endsDeep n = (list g i nil).endsDeep (n + 1) := by
  have hbehind : behind g i nil = nil := by unfold behind; split <;> rfl
  have hend : ∀ j n, (list g j nil).endsDeep (n + 1) = ((height? g j).isNone || j.endsDeep n) := fun j n => rfl
  rw [hend]
  rcases list_cases g i with ⟨rfl, hi, hh⟩ | ⟨hg, m, hh, hs⟩ | ⟨hg, hh, hs⟩
  · rw [settle_taken hi, hbehind, endsDeep_before, hh, Option.isNone_some, Bool.false_or]
    cases n with
    | zero => simp
    | succ n => rw [endsDeep_of_no_lists hi]; rfl
  · have hg' : g = true := by cases g <;> simp_all [height?]
    have hi : i.lists = true := by rw [hg'] at hg; simpa using hg
    have hspilled : i.spilled = i.trail := by rw [spilled, if_pos (spills_of_tall hi (tall_of_height? hh))]
    rw [settle_left hg, hbehind, hspilled, hh, Option.isNone_some, Bool.false_or]
    cases n with
    | zero => simp
    | succ n =>
      by_cases ht : i.trail = []
      · rw [ht]
        exact (hend i.settle n).trans (by rw [hs, Option.isNone_some, Bool.false_or, ih hi ht])
      · rw [endsDeep_list (before_ne_nil (.inl ht)), endsDeep_before, endsDeep_of_trail ht]
        rfl
  · have hspilled : i.spilled = [] := by
      rw [lost_kept hh] at hlost
      exact List.eq_nil_of_length_eq_zero (by omega)
    rw [settle_left hg, hbehind, hspilled, hh]
    cases n with
    | zero => simp
    | succ n => exact (hend i.settle n).trans (by rw [hs]; rfl)

/-- **A round lowers by one how deep forms end**, if it loses nothing and they end with a list. -/
theorem endsDeep_settle : ∀ {f : Forms} {word : Bool}, attached word f = true → f.lost = 0 → f.lists = true →
    f.trail = [] → ∀ n, f.settle.endsDeep n = f.endsDeep (n + 1)
  | leaf w r, _, ha, hlost, hl, ht, n => by
    have hr : r.lists = true := hl
    rw [trail, if_pos hr] at ht
    have ih := endsDeep_settle (f := r) ha hlost hr ht
    cases n with
    | zero => rw [endsDeep_zero]; exact (endsDeep_zero _).symm.trans (ih 0)
    | succ n => exact ih (n + 1)
  | list g i r, _, ha, hlost, _, ht, n => by
    simp only [attached, Bool.and_eq_true] at ha
    obtain ⟨⟨-, hai⟩, har⟩ := ha
    have hlosti : i.lost = 0 := by rw [lost] at hlost; omega
    have hlostr : r.lost = 0 := by rw [lost] at hlost; omega
    cases hr : r.lists with
    | false =>
      have hnil := eq_nil_of_trail hr ht
      subst hnil
      exact endsDeep_settle_last hlost (endsDeep_settle hai hlosti) n
    | true =>
      have hne : r ≠ nil := fun he => by rw [he] at hr; cases hr
      have hbehind : behind g i r = r.settle := by simp [behind, hr]
      rw [endsDeep_list hne, ← endsDeep_settle har hlostr hr ht]
      cases hg : g && !i.lists with
      | true =>
        rw [Bool.and_eq_true, Bool.not_eq_true'] at hg
        obtain ⟨rfl, hi⟩ := hg
        rw [settle_taken hi, hbehind, endsDeep_before]
      | false =>
        rw [settle_left hg, hbehind]
        cases n with
        | zero => simp
        | succ n => rw [endsDeep_list (before_ne_nil (.inr (settle_ne_nil har hr))), endsDeep_before]

theorem lost_of_no_lists : ∀ {f : Forms}, f.lists = false → f.lost = 0
  | nil, _ => rfl
  | leaf _ r, h => lost_of_no_lists (f := r) h

theorem orderly_of_no_lists {f : Forms} (h : f.lists = false) : f.orderly = true := by
  rw [eq_before_trail h, orderly_before]
  rfl

/-- **A list ends as deep as is reached in it exactly if it spills nothing in this round, and ends as deep as is reached
after it.** -/
theorem endsDeep_reach_iff {f : Forms} {word : Bool} (ha : attached word f = true) (hlost : f.lost = 0) :
    f.endsDeep (f.reachFrom 0) = true ↔ f.spilled = [] ∧ f.settle.endsDeep (f.settle.reachFrom 0) = true := by
  have hreach : f.settle.reachFrom 0 = f.reachFrom 0 - 1 := reachFrom_settle f 0
  rw [hreach]
  cases hl : f.lists with
  | false =>
    rw [reachFrom_of_no_lists hl, spilled, if_neg (by simp [spills_of_no_lists hl])]
    simp
  | true =>
    have hspills := spills_iff_reach hl 0
    cases hn : f.reachFrom 0 with
    | zero =>
      rw [hn] at hspills
      rw [spilled, if_neg (fun h => absurd (hspills.1 h) (by omega))]
      simp
    | succ n =>
      rw [hn] at hspills
      rw [spilled, if_pos (hspills.2 (by omega)), Nat.add_sub_cancel]
      by_cases ht : f.trail = []
      · rw [endsDeep_settle ha hlost hl ht]
        exact ⟨fun h => ⟨ht, h⟩, fun h => h.2⟩
      · rw [endsDeep_of_trail ht]
        exact ⟨fun h => absurd h (by simp), fun h => absurd h.1 ht⟩

/-- **Forms are orderly exactly if a round loses nothing and leaves them orderly.** -/
theorem orderly_iff_settle : ∀ {f : Forms} {word : Bool}, attached word f = true →
    (f.orderly = true ↔ f.lost = 0 ∧ f.settle.orderly = true)
  | nil, _, _ => by simp [orderly, settle, lost]
  | leaf _ r, _, ha => orderly_iff_settle (f := r) ha
  | list g i r, _, ha => by
    simp only [attached, Bool.and_eq_true] at ha
    obtain ⟨⟨-, hai⟩, har⟩ := ha
    have hi := orderly_iff_settle hai
    have hr : r.orderly = true ↔ r.lost = 0 ∧ (behind g i r).orderly = true := by
      rcases behind_cases g i r with ⟨h, -⟩ | ⟨hr, h, -⟩
      · rw [h, orderly_iff_settle har]
      · rw [h, orderly_of_no_lists hr, lost_of_no_lists hr]; simp [orderly]
    rcases list_cases g i with ⟨rfl, hil, hh⟩ | ⟨hg, m, hh, hs⟩ | ⟨hg, hh, hs⟩
    · rw [settle_taken hil, orderly_before, orderly, hh, lost_spliced hh, lost_of_no_lists hil,
        orderly_of_no_lists hil]
      simpa using hr
    · rw [settle_left hg, orderly, orderly, orderly_before, hh, hs, lost_spliced hh]
      simp only [Option.isSome_some, Bool.true_or, Bool.true_and, Bool.and_eq_true, hi, hr, Nat.add_eq_zero_iff]
      exact and_and_and_comm
    -- a list that is kept spills nothing now, and still ends deep enough for the rounds to come
    · rw [settle_left hg, orderly, orderly, orderly_before, hh, hs, lost_kept hh]
      simp only [Option.isSome_none, Bool.false_or, Bool.and_eq_true, hi, hr, Nat.add_eq_zero_iff,
        List.length_eq_zero_iff]
      constructor
      · rintro ⟨⟨hdeep, hlosti, hordi⟩, hlostr, hordr⟩
        obtain ⟨hspilled, hdeep'⟩ := (endsDeep_reach_iff hai hlosti).1 hdeep
        exact ⟨⟨⟨hspilled, hlosti⟩, hlostr⟩, ⟨hdeep', hordi⟩, hordr⟩
      · rintro ⟨⟨⟨hspilled, hlosti⟩, hlostr⟩, ⟨hdeep', hordi⟩, hordr⟩
        exact ⟨⟨(endsDeep_reach_iff hai hlosti).2 ⟨hspilled, hdeep'⟩, hlosti, hordi⟩, hlostr, hordr⟩

/-! ## What a round keeps -/

theorem splice_words_iff : ∀ f : Forms, f.splice.all (!·.isList) = f.tall.isSome
  | nil => rfl
  | leaf _ r => by
    rw [splice, List.all_cons, splice_words_iff r]
    rfl
  | list g i r => by
    rw [splice, splice_words_iff i, tall]
    cases g with
    | false => rfl
    | true =>
      cases hi : i.tall with
      | none => rfl
      | some m =>
        have hw := splice_words_iff i
        rw [hi] at hw
        simp only [Option.isSome_some, Bool.and_self, if_true, List.all_append, hw, splice_words_iff r, Bool.true_and]
        cases r.tall <;> rfl

theorem splice_list (g : Bool) (i r : Forms) : (list g i r).splice =
    if (height? g i).isSome then i.splice ++ r.splice else .list i.splice :: r.splice := by
  rw [splice, splice_words_iff, height?]
  cases g <;> rfl

theorem spilled_leaf (w : String) (r : Forms) : (leaf w r).spilled = r.spilled := by
  unfold spilled
  have hspills : (leaf w r).spills = r.spills := rfl
  rw [hspills]
  cases hl : r.lists with
  | true => rw [trail, if_pos hl]
  | false => rw [spills_of_no_lists hl]; rfl

theorem splice_behind (g : Bool) (i r : Forms) (h : r.splice = r.settle.splice ++ r.spilled.map .word) :
    r.splice = (behind g i r).splice ++ (list g i r).spilled.map .word := by
  rcases behind_cases g i r with ⟨hb, hs⟩ | ⟨hr, hb, hs⟩
  · rw [hb, hs, h]
  · rw [hb, hs, splice_of_no_lists hr]
    rfl

/-- **A round that loses nothing keeps the direct reading**, with the spilled words at its end. -/
theorem splice_settle : ∀ {f : Forms}, f.lost = 0 → f.splice = f.settle.splice ++ f.spilled.map .word
  | nil, _ => rfl
  | leaf w r, h => by
    rw [splice, splice_settle (f := r) h, settle, splice, List.cons_append, spilled_leaf]
  | list g i r, h => by
    have hlosti : i.lost = 0 := by rw [lost] at h; omega
    have hr := splice_behind g i r (splice_settle (by rw [lost] at h; omega))
    rcases list_cases g i with ⟨rfl, hi, hh⟩ | ⟨hg, m, hh, hs⟩ | ⟨hg, hh, hs⟩
    · rw [settle_taken hi, splice_before, splice_list, hh, Option.isSome_some, if_pos rfl, splice_of_no_lists hi,
        List.append_assoc, ← hr]
    · rw [settle_left hg, splice_list, splice_list, hh, hs, splice_before, Option.isSome_some, Option.isSome_some,
        if_pos rfl, if_pos rfl, List.append_assoc, List.append_assoc, ← hr, ← List.append_assoc,
        ← splice_settle hlosti]
    · have hspilled : i.spilled = [] := by
        rw [lost_kept hh] at h
        exact List.eq_nil_of_length_eq_zero (by omega)
      have hi := splice_settle hlosti
      rw [hspilled, List.map_nil, List.append_nil] at hi
      rw [settle_left hg, splice_list, splice_list, hh, hs, splice_before, hspilled, Option.isSome_none,
        if_neg Bool.false_ne_true, if_neg Bool.false_ne_true, List.map_nil, List.nil_append, List.cons_append, ← hr, hi]

end Forms

end Epistemic.Source
