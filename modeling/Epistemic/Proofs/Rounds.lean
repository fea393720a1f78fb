import Epistemic.Proofs.Forms
/-!
# Rounds

A round leaves the direct reading of forms as it was or makes it lighter, and so do words that run together and lists
that come to be glued to an operator (`Blurs`): what has been lost is not got back (`Lightens`).  So forms keep their
direct reading in all rounds exactly if they are orderly (`orderly_iff_round`), and when a round finds nothing to take,
they stand as they are read.
-/
namespace Epistemic.Source

mutual
/-- What a tree weighs that stands so deep: its words as much as they are deep, and each list one more. -/
def weigh (d : Nat) : Tree → Nat
  | .word _ => d
  | .list ts => weighAll (d + 1) ts + 1
/-- What trees weigh together. -/
def weighAll (d : Nat) : List Tree → Nat
  | [] => 0
  | t :: ts => weigh d t + weighAll d ts
end

theorem weighAll_append (d : Nat) : ∀ ts us : List Tree, weighAll d (ts ++ us) = weighAll d ts + weighAll d us
  | [], us => by simp [weighAll]
  | t :: ts, us => by rw [List.cons_append, weighAll, weighAll, weighAll_append d ts us, Nat.add_assoc]

theorem weighAll_words (d : Nat) : ∀ ws : List String, weighAll d (ws.map .word) = ws.length * d
  | [] => by simp [weighAll]
  | w :: ws => by
    rw [List.map_cons, weighAll, weigh, weighAll_words d ws, List.length_cons, Nat.succ_mul, Nat.add_comm]

mutual
theorem weigh_le_succ (d : Nat) : ∀ t : Tree, weigh d t ≤ weigh (d + 1) t
  | .word _ => Nat.le_succ d
  | .list ts => by
    rw [weigh, weigh]
    exact Nat.succ_le_succ (weighAll_le_succ (d + 1) ts)
theorem weighAll_le_succ (d : Nat) : ∀ ts : List Tree, weighAll d ts ≤ weighAll (d + 1) ts
  | [] => Nat.le_refl _
  | t :: ts => by
    rw [weighAll, weighAll]
    exact Nat.add_le_add (weigh_le_succ d t) (weighAll_le_succ d ts)
end

/-- What is left of trees is all of them, or weighs less, however deep they stand. -/
def Lightens (ts us : List Tree) : Prop := us = ts ∨ ∀ d, 0 < d → weighAll d us < weighAll d ts

namespace Lightens

theorem refl (ts : List Tree) : Lightens ts ts := .inl rfl

theorem le {ts us : List Tree} (h : Lightens ts us) {d : Nat} (hd : 0 < d) : weighAll d us ≤ weighAll d ts := by
  rcases h with rfl | h
  · exact Nat.le_refl _
  · exact Nat.le_of_lt (h d hd)

theorem trans {ts us vs : List Tree} (h₁ : Lightens ts us) (h₂ : Lightens us vs) : Lightens ts vs := by
  rcases h₁ with rfl | h₁
  · exact h₂
  · exact .inr fun d hd => Nat.lt_of_le_of_lt (h₂.le hd) (h₁ d hd)

/-- **What trees have lost they do not get back.** -/
theorem antisymm {ts us : List Tree} (h₁ : Lightens ts us) (h₂ : Lightens us ts) : us = ts := by
  rcases h₁ with h₁ | h₁
  · exact h₁
  · exact absurd (Nat.lt_of_le_of_lt (h₂.le Nat.one_pos) (h₁ 1 Nat.one_pos)) (Nat.lt_irrefl _)

theorem append {ts us ts' us' : List Tree} (h : Lightens ts us) (h' : Lightens ts' us') :
    Lightens (ts ++ ts') (us ++ us') := by
  rcases h with rfl | hlt
  · rcases h' with rfl | hlt'
    · exact refl _
    · refine .inr fun d hd => ?_
      rw [weighAll_append, weighAll_append]
      exact Nat.add_lt_add_left (hlt' d hd) _
  · refine .inr fun d hd => ?_
    rw [weighAll_append, weighAll_append]
    exact Nat.add_lt_add_of_lt_of_le (hlt d hd) (h'.le hd)

theorem list {ts us : List Tree} (h : Lightens ts us) : Lightens [.list ts] [.list us] := by
  rcases h with rfl | hlt
  · exact refl _
  · refine .inr fun d _ => ?_
    have := hlt (d + 1) (Nat.succ_pos d)
    simp only [weighAll, weigh]
    omega

/-- A list weighs more than what is in it. -/
theorem spliced (ts : List Tree) : Lightens [.list ts] ts := by
  refine .inr fun d _ => ?_
  have := weighAll_le_succ d ts
  simp only [weighAll, weigh]
  omega

end Lightens

namespace Forms

theorem weigh_behind (g : Bool) (i r : Forms) (d : Nat)
    (h : weighAll d r.splice = weighAll d r.settle.splice + r.spilled.length * d + r.lost) :
    weighAll d r.splice = weighAll d (behind g i r).splice + (list g i r).spilled.length * d + r.lost := by
  rcases behind_cases g i r with ⟨hb, hs⟩ | ⟨hr, hb, hs⟩
  · rw [hb, hs, h]
  · rw [hb, hs, splice_of_no_lists hr, weighAll_words, lost_of_no_lists hr]
    simp [splice, weighAll]

/-- **A round takes from the direct reading, for each word that leaves a list that is kept, one list around it.** -/
theorem weigh_settle : ∀ (f : Forms) (d : Nat),
    weighAll d f.splice = weighAll d f.settle.splice + f.spilled.length * d + f.lost
  | nil, _ => by simp [splice, settle, weighAll, spilled, spills, lost]
  | leaf w r, d => by
    have ih := weigh_settle r d
    rw [splice, settle, splice, weighAll, weighAll, spilled_leaf, ih, lost]
    omega
  | list g i r, d => by
    have hr := weigh_behind g i r d (weigh_settle r d)
    rcases list_cases g i with ⟨rfl, hi, hh⟩ | ⟨hg, m, hh, hs⟩ | ⟨hg, hh, hs⟩
    · rw [settle_taken hi, splice_before, splice_list, hh, Option.isSome_some, if_pos rfl, splice_of_no_lists hi,
        weighAll_append, weighAll_append, hr, lost_spliced hh, lost_of_no_lists hi]
      omega
    · have hi := weigh_settle i d
      rw [settle_left hg, splice_list, splice_list, hh, hs, splice_before, Option.isSome_some, Option.isSome_some,
        if_pos rfl, if_pos rfl, weighAll_append, weighAll_append, weighAll_append, weighAll_words, hr, hi,
        lost_spliced hh]
      omega
    · have hi := weigh_settle i (d + 1)
      rw [settle_left hg, splice_list, splice_list, hh, hs, splice_before, Option.isSome_none,
        if_neg Bool.false_ne_true, if_neg Bool.false_ne_true, weighAll, weighAll, weigh, weigh, weighAll_append,
        weighAll_words, hr, hi, lost_kept hh, Nat.mul_succ]
      omega

/-! ## All rounds -/

/-- Forms with words behind them. -/
def followedBy : Forms → List String → Forms
  | nil, ws => before ws nil
  | leaf w r, ws => leaf w (r.followedBy ws)
  | list g i r, ws => list g i (r.followedBy ws)

theorem splice_followedBy : ∀ (f : Forms) (ws : List String), (f.followedBy ws).splice = f.splice ++ ws.map .word
  | nil, ws => by rw [followedBy, splice_before]; simp [splice]
  | leaf w r, ws => by rw [followedBy, splice, splice, splice_followedBy r ws, List.cons_append]
  | list g i r, ws => by
    rw [followedBy, splice_list, splice_list, splice_followedBy r ws]
    split
    · rw [List.append_assoc]
    · rw [List.cons_append]

theorem orderly_followedBy : ∀ (f : Forms) (ws : List String), (f.followedBy ws).orderly = f.orderly
  | nil, ws => by rw [followedBy, orderly_before]
  | leaf _ r, ws => orderly_followedBy r ws
  | list g i r, ws => by rw [followedBy, orderly, orderly, orderly_followedBy r ws]

/-- One round: outside of all lists no parenthesis is left to pass, so that nothing is lost there. -/
def round (f : Forms) : Forms := f.settle.followedBy f.spilled

theorem splice_round {f : Forms} (h : f.lost = 0) : f.round.splice = f.splice := by
  rw [round, splice_followedBy, ← splice_settle h]

theorem weigh_round (f : Forms) (d : Nat) : weighAll d f.splice = weighAll d f.round.splice + f.lost := by
  rw [round, splice_followedBy, weighAll_append, weighAll_words, weigh_settle]

/-- **A round loses words for good.** -/
theorem lightens_round (f : Forms) : Lightens f.splice f.round.splice := by
  by_cases h : f.lost = 0
  · exact .inl (splice_round h)
  · refine .inr fun d _ => ?_
    rw [weigh_round f d]
    omega

/-- **Forms keep their direct reading in all rounds exactly if they keep it in the first and then in the others.** -/
theorem orderly_iff_round {f : Forms} (ha : attached false f = true) :
    f.orderly = true ↔ f.round.splice = f.splice ∧ f.round.orderly = true := by
  rw [orderly_iff_settle ha, round, orderly_followedBy, ← round]
  refine and_congr_left fun _ => ⟨splice_round, fun h => ?_⟩
  have hw := weigh_round f 0
  rw [h] at hw
  omega

/-! ## Words that run together -/

/-- Forms in which words have run together or lists have been glued to the words before them. -/
inductive Blurs : Forms → Forms → Prop
  | nil : Blurs nil nil
  | leaf {w : String} {r r' : Forms} (h : Blurs r r') : Blurs (leaf w r) (leaf w r')
  | fuse {u v : String} {r r' : Forms} (h : Blurs r (leaf v r')) : Blurs (leaf u r) (leaf (u ++ v) r')
  | list {g g' : Bool} {i i' r r' : Forms} (hg : g = true → g' = true) (hi : Blurs i i') (hr : Blurs r r') :
      Blurs (list g i r) (list g' i' r')

theorem isSome_height? {g g' : Bool} {i i' : Forms} (hg : g = true → g' = true)
    (hi : i.tall.isSome = true → i'.tall.isSome = true) (h : (height? g i).isSome = true) :
    (height? g' i').isSome = true := by
  cases g with
  | false => cases h
  | true =>
    rw [hg rfl]
    exact hi h

theorem isSome_tall_list (g : Bool) (i r : Forms) :
    (list g i r).tall.isSome = true ↔ (height? g i).isSome = true ∧ r.tall.isSome = true := by
  rw [tall_list]
  cases height? g i <;> cases r.tall <;> simp

theorem Blurs.tall {f f' : Forms} (h : Blurs f f') : f.tall.isSome = true → f'.tall.isSome = true := by
  induction h with
  | nil => exact id
  | leaf _ ih => exact ih
  | fuse _ ih => exact ih
  | list hg _ _ ihi ihr =>
    rw [isSome_tall_list, isSome_tall_list]
    exact fun ⟨hi, hr⟩ => ⟨isSome_height? hg ihi hi, ihr hr⟩

/-- **What has run together does not come apart**: the direct reading stays as it was or weighs less. -/
theorem Blurs.lightens {f f' : Forms} (h : Blurs f f') : Lightens f.splice f'.splice := by
  induction h with
  | nil => exact .refl _
  | @leaf w r r' _ ih => exact Lightens.append (.refl [.word w]) ih
  | @fuse u v r r' _ ih =>
    refine .inr fun d hd => ?_
    have hle := ih.le hd
    simp only [splice, weighAll, weigh] at hle ⊢
    omega
  | @list g g' i i' r r' hg hi hr ihi ihr =>
    rw [splice_list, splice_list]
    cases hkept : (height? g i).isSome with
    | true =>
      rw [isSome_height? hg hi.tall hkept, if_pos rfl, if_pos rfl]
      exact ihi.append ihr
    | false =>
      rw [if_neg Bool.false_ne_true]
      -- a list that was kept may come to be spliced, never the other way
      split
      · exact ((Lightens.spliced i.splice).trans ihi).append ihr
      · exact ihi.list.append ihr

/-- How many lists the next round takes. -/
def ready : Forms → Nat
  | nil => 0
  | leaf _ r => r.ready
  | list g i r => (if g && !i.lists then 1 else 0) + i.ready + r.ready

theorem not_taken {g : Bool} {i r : Forms} (h : (list g i r).ready = 0) :
    (g && !i.lists) = false ∧ i.ready = 0 ∧ r.ready = 0 := by
  rw [ready] at h
  refine ⟨?_, by omega, by omega⟩
  cases hg : g && !i.lists with
  | false => rfl
  | true => rw [hg] at h; simp at h

theorem tall_of_ready : ∀ {f : Forms}, f.ready = 0 → f.lists = true → f.tall = none
  | leaf _ r, h, hl => tall_of_ready (f := r) h hl
  | list g i r, h, _ => by
    obtain ⟨hg, hi, -⟩ := not_taken h
    cases g with
    | false => rfl
    | true => rw [tall_list, height?, if_pos rfl, tall_of_ready hi (by simpa using hg)]

/-- **When no list is ready, none will be spliced.** -/
theorem height?_of_ready {g : Bool} {i r : Forms} (h : (list g i r).ready = 0) : height? g i = none := by
  obtain ⟨hg, hi, -⟩ := not_taken h
  cases g with
  | false => rfl
  | true => exact tall_of_ready hi (by simpa using hg)

theorem splice_of_ready : ∀ {f : Forms}, f.ready = 0 → f.splice = f.trees
  | nil, _ => rfl
  | leaf w r, h => by rw [splice, trees, splice_of_ready (f := r) h]
  | list g i r, h => by
    obtain ⟨-, hi, hr⟩ := not_taken h
    rw [splice_list, height?_of_ready h, Option.isSome_none, if_neg Bool.false_ne_true, trees, splice_of_ready hi,
      splice_of_ready hr]

theorem reachFrom_of_ready : ∀ {f : Forms}, f.ready = 0 → f.reachFrom 0 = 0
  | nil, _ => rfl
  | leaf _ r, h => reachFrom_of_ready (f := r) h
  | list g i r, h => by
    obtain ⟨-, hi, hr⟩ := not_taken h
    rw [reachFrom, height?_of_ready h]
    simp only
    rw [reachFrom_of_ready hi, reachFrom_of_ready hr]

theorem orderly_of_ready : ∀ {f : Forms}, f.ready = 0 → f.orderly = true
  | nil, _ => rfl
  | leaf _ r, h => orderly_of_ready (f := r) h
  | list g i r, h => by
    obtain ⟨-, hi, hr⟩ := not_taken h
    rw [orderly, reachFrom_of_ready hi, endsDeep_zero, orderly_of_ready hi, orderly_of_ready hr, Bool.or_true]
    rfl

end Forms
end Epistemic.Source
