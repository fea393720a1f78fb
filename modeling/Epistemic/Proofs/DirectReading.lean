import Epistemic.Proofs.GlyphTrees
/-!
# The direct reading

The direct reading of a text splices each list that is glued to an operator and holds, once those in it are spliced, no
other.  What a planning file is read into is not always that: the parenthesis taken away with the one behind the
operator is the last that closes before the next that opens, and words behind the list's own end may leave the lists
around it.  A pass that loses the direct reading loses it for good, and `scan_eq_splice_iff` says exactly when none
does.
-/
namespace Epistemic.Source

open Glyph (spell solid spaced signs signsFrom thin thins)

/-! ## Passes over a text that is read directly -/

/-- Trees are the direct reading of a text. -/
def Reads (cs : List Char) (ts : List Tree) : Prop :=
  ∃ (gs : List Glyph) (f : Forms), spell gs = cs ∧ solid gs = true ∧ f.signs = signs gs ∧ f.splice = ts

/-- The text after so many passes of the rule for the parentheses behind operators. -/
def merged : Nat → List Char → List Char
  | 0, cs => cs
  | n + 1, cs => merged n (pass operatorParentheses cs).1

theorem merged_add (cs : List Char) : ∀ m n : Nat, merged (m + n) cs = merged n (merged m cs)
  | 0, n => by rw [Nat.zero_add, merged]
  | m + 1, n => by rw [Nat.succ_add, merged, merged_add _ m n, merged]

theorem merged_of_still {cs : List Char} (h : (pass operatorParentheses cs).2 = 0) : ∀ n, merged n cs = cs
  | 0 => rfl
  | n + 1 => by
    have hself := (passes_pass operatorParentheses_consumes cs).eq_of_zero h
    rw [merged, hself, merged_of_still h n]

theorem exhaustWithin_eq_merged : ∀ (fuel : Nat) (cs : List Char),
    ∃ n, exhaustWithin operatorParentheses fuel cs = merged n cs
  | 0, _ => ⟨0, rfl⟩
  | fuel + 1, cs => by
    unfold exhaustWithin
    split
    · rename_i new heq
      exact ⟨1, by rw [merged, heq, merged]⟩
    · rename_i new n heq
      obtain ⟨k, hk⟩ := exhaustWithin_eq_merged fuel new
      exact ⟨k + 1, by rw [merged, heq, hk]⟩

/-- Every pass is followed by others that exhaust the rule. -/
theorem exists_merged_eq_exhaust (cs : List Char) (n : Nat) :
    ∃ k, merged k (merged n cs) = exhaust operatorParentheses cs := by
  obtain ⟨m, hm⟩ := exhaustWithin_eq_merged (cs.count '(' + 1) cs
  have hstill := pass_exhaust operatorParentheses_consumes Nat.one_pos (operatorParentheses_takes (.inl rfl)) cs
  rw [← exhaust] at hm
  rcases Nat.le_total n m with hle | hle
  · exact ⟨m - n, by rw [← merged_add, Nat.add_sub_cancel' hle, hm]⟩
  · refine ⟨0, ?_⟩
    rw [merged, ← Nat.add_sub_cancel' hle, merged_add, ← hm, merged_of_still hstill]

theorem pass_spell {gs : List Glyph} (h : solid gs = true) :
    pass operatorParentheses (spell gs) = (spell (thin false false gs), thins false gs) := by
  obtain ⟨h₁, h₂⟩ := (passes_pass operatorParentheses_consumes (spell gs)).unique (Glyph.passes_spell h)
  exact Prod.ext h₁ h₂

/-- **A pass keeps the direct reading, or it loses something for good.** -/
theorem Reads.pass {cs : List Char} {ts : List Tree} (h : Reads cs ts) :
    ∃ us, Reads (pass operatorParentheses cs).1 us ∧ Lightens ts us := by
  obtain ⟨gs, f, rfl, hsolid, hf, rfl⟩ := h
  have hblurs : Sign.Blurs (shed false (signs gs)) (signs (thin false false gs)) :=
    Glyph.blurs_thin gs id (.same [])
  rw [← hf, shed_signs] at hblurs
  obtain ⟨f', hf', hlightens⟩ := Forms.lightens_of_blurs hblurs
  rw [pass_spell hsolid]
  exact ⟨f'.splice, ⟨_, f', rfl, Glyph.solid_thin hsolid false false, hf', rfl⟩, f.lightens_round.trans hlightens⟩

theorem Reads.merged : ∀ {cs : List Char} {ts : List Tree}, Reads cs ts → ∀ n : Nat,
    ∃ us, Reads (merged n cs) us ∧ Lightens ts us
  | _, ts, h, 0 => ⟨ts, h, .refl ts⟩
  | _, _, h, n + 1 => by
    obtain ⟨us, hus, h₁⟩ := h.pass
    obtain ⟨vs, hvs, h₂⟩ := hus.merged n
    exact ⟨vs, hvs, h₁.trans h₂⟩

theorem ready_of_still {gs : List Glyph} (h : solid gs = true) {f : Forms} (hf : f.signs = signs gs)
    (hstill : (pass operatorParentheses (spell gs)).2 = 0) : f.ready = 0 := by
  have hsheds := sheds_signs [] f
  rw [List.append_nil, hf, signs, Glyph.sheds_signsFrom] at hsheds
  rw [pass_spell h] at hstill
  simp only at hstill
  omega

/-- **When a pass finds nothing, a text makes the tree that it directly reads as.** -/
theorem nest_reads {cs : List Char} {ts : List Tree} (h : Reads cs ts) (hstill : (pass operatorParentheses cs).2 = 0)
    (t : Tree) : nest (tokens cs) = .ok t ↔ ts = [t] := by
  obtain ⟨gs, f, rfl, hsolid, hf, rfl⟩ := h
  rw [Glyph.nest_spell hsolid hf, Forms.splice_of_ready (ready_of_still hsolid hf hstill)]

/-- **The direct reading is lost exactly if a pass loses it**, whichever of the two is a tree. -/
theorem nest_exhaust_iff {cs : List Char} {ts : List Tree} (h : Reads cs ts) {t : Tree}
    (ht : nest (tokens (exhaust operatorParentheses cs)) = .ok t ∨ ts = [t]) :
    (nest (tokens (exhaust operatorParentheses cs)) = .ok t ∧ ts = [t]) ↔ ∀ n, Reads (merged n cs) ts := by
  have hstill := pass_exhaust operatorParentheses_consumes Nat.one_pos (operatorParentheses_takes (.inl rfl)) cs
  constructor
  · rintro ⟨hok, rfl⟩ n
    obtain ⟨us, hus, h₁⟩ := h.merged n
    obtain ⟨k, hk⟩ := exists_merged_eq_exhaust cs n
    obtain ⟨vs, hvs, h₂⟩ := hus.merged k
    rw [hk] at hvs
    rw [(nest_reads hvs hstill t).1 hok] at h₂
    rw [← h₁.antisymm h₂]
    exact hus
  · intro hall
    obtain ⟨n, hn⟩ := exists_merged_eq_exhaust cs 0
    have hlast := hall n
    rw [show merged n cs = _ from hn] at hlast
    have hiff := nest_reads hlast hstill t
    exact ⟨ht.elim id hiff.2, ht.elim hiff.1 id⟩

/-! ## Spaced texts -/

/-- A text comes from passes over forms: it is theirs after some rounds, and they are orderly exactly if it still has
their direct reading and is orderly. -/
def Descends (f₀ : Forms) (cs : List Char) : Prop :=
  ∃ (gs : List Glyph) (f : Forms), spell gs = cs ∧ solid gs = true ∧ spaced gs = true ∧ f.signs = signs gs ∧
    Lightens f₀.splice f.splice ∧ (f₀.orderly = true ↔ f.splice = f₀.splice ∧ f.orderly = true)

/-- **A pass over a spaced text is a round.** -/
theorem Descends.pass {f₀ : Forms} {cs : List Char} (h : Descends f₀ cs) :
    Descends f₀ (pass operatorParentheses cs).1 := by
  obtain ⟨gs, f, rfl, hsolid, hspaced, hf, hlightens, horderly⟩ := h
  have hsigns : signs (thin false false gs) = shed false (signs gs) :=
    Glyph.signsFrom_thin hsolid hspaced (fun h => by cases h) (fun h => absurd rfl h) false
  have hglue : glueOk false (f.signs ++ []) = true := by
    rw [List.append_nil, hf]
    exact Glyph.glueOk_signsFrom gs (fun h => by cases h)
  rw [pass_spell hsolid]
  refine ⟨_, f.round, rfl, Glyph.solid_thin hsolid false false, Glyph.spaced_thin hsolid hspaced false false, ?_,
    hlightens.trans f.lightens_round, ?_⟩
  · rw [hsigns, ← hf, shed_signs]
  · rw [horderly, Forms.orderly_iff_round (attached_of_glueOk hglue)]
    constructor
    · rintro ⟨hsplice, hround, hord⟩
      exact ⟨hround.trans hsplice, hord⟩
    · rintro ⟨hround, hord⟩
      -- what the round reads like the forms did, so did the text before it
      have hback : Lightens f.splice f₀.splice := by
        rw [← hround]
        exact f.lightens_round
      have hsplice := hlightens.antisymm hback
      exact ⟨hsplice, hround.trans hsplice.symm, hord⟩

theorem nest_exhaust_orderly_iff {gs : List Glyph} (hsolid : solid gs = true) (hspaced : spaced gs = true) {f : Forms}
    (hf : f.signs = signs gs) {t : Tree}
    (ht : nest (tokens (exhaust operatorParentheses (spell gs))) = .ok t ∨ f.splice = [t]) :
    (nest (tokens (exhaust operatorParentheses (spell gs))) = .ok t ∧ f.splice = [t]) ↔ f.orderly = true := by
  have hstart : Descends f (spell gs) :=
    ⟨gs, f, rfl, hsolid, hspaced, hf, .refl _, ⟨fun h => ⟨rfl, h⟩, fun h => h.2⟩⟩
  have hend : Descends f (exhaust operatorParentheses (spell gs)) :=
    exhaustWithin_induction (Descends f) (fun _ h => h.pass) _ _ hstart
  obtain ⟨gs', f', hspell, hsolid', -, hf', -, horderly⟩ := hend
  have hstill := pass_exhaust operatorParentheses_consumes Nat.one_pos (operatorParentheses_takes (.inl rfl)) (spell gs)
  have hiff := nest_reads ⟨gs', f', hspell, hsolid', hf', rfl⟩ hstill t
  rw [← hspell] at hstill
  rw [horderly, hiff, and_iff_left (Forms.orderly_of_ready (ready_of_still hsolid' hf' hstill))]
  rw [hiff] at ht
  constructor
  · rintro ⟨h', h⟩
    rw [h', h]
  · intro heq
    rw [heq] at ht ⊢
    exact ⟨ht.elim id id, ht.elim id id⟩

/-! ## Reading a file -/

/-- A text without comments, in lower case, with the agents of its operators written without their type. -/
def prepared (text : String) : List Char := (pass agentType (plain (unifyNewlines text.toList))).1

theorem scan_eq_nest {text : String} (hdouble : (pass doubleParentheses (prepared text)).2 = 0) :
    scan .levels text = nest (tokens (exhaust operatorParentheses (prepared text))) := by
  have hscan : scan .levels text =
      nest (tokens (exhaust operatorParentheses (exhaust doubleParentheses (prepared text)))) := rfl
  rw [hscan, exhaust_eq_self doubleParentheses_consumes hdouble]

/-- **When a text is read directly.**  Where parentheses are balanced, brackets closed, no pair of parentheses stands
around another and none that is empty behind an operator, the text has one sequence of forms.  If what it is read into
or its direct reading is a tree, both are and are the same exactly if every pass over the text keeps the direct reading,
and, where nothing is joined by taking parentheses away, exactly if every list that is kept ends as deep as those reach
that are spliced at its end. -/
theorem scan_eq_splice_iff {text : String} {gs : List Glyph} (hspell : spell gs = prepared text)
    (hsolid : solid gs = true) (hbalanced : Balanced (plain (unifyNewlines text.toList)))
    (hdouble : (pass doubleParentheses (prepared text)).2 = 0) :
    ∃ f : Forms, f.signs = signs gs ∧ (∀ g : Forms, g.signs = signs gs → g = f) ∧
      ∀ t : Tree, (scan .levels text = .ok t ∨ f.splice = [t]) →
        ((scan .levels text = .ok t ∧ f.splice = [t]) ↔ ∀ n, Reads (merged n (prepared text)) f.splice) ∧
        (spaced gs = true → ((scan .levels text = .ok t ∧ f.splice = [t]) ↔ f.orderly = true)) := by
  have hdepth : signDepthFrom 0 (signs gs) = some 0 := by
    rw [signs, Glyph.signDepthFrom_signsFrom hsolid, hspell, prepared,
      ← pass_sameNesting agentType_consumes agentType_keepsNesting, (balanced_iff _).1 hbalanced]
  obtain ⟨f, hf, hunique⟩ := exists_forms hdepth
  refine ⟨f, hf, hunique, fun t ht => ?_⟩
  rw [scan_eq_nest hdouble, ← hspell] at ht ⊢
  exact ⟨nest_exhaust_iff ⟨gs, f, rfl, hsolid, hf, rfl⟩ ht, fun hspaced =>
    nest_exhaust_orderly_iff hsolid hspaced hf ht⟩

/-- The glyphs of a text without brackets. -/
def bareGlyphs (text : String) : List Glyph :=
  text.toList.map fun c => if c = '(' then .opens else if c = ')' then .closes else .other c

/-- What follows a precondition that is a belief leaves the action. -/
theorem scan_eq_splice_iff_precondition :
    let text := "(define (:action a :precondition ([b](p)) :act_type ontic))"
    let gs := bareGlyphs "(define (:action a :precondition (" ++
      .operator ['b'] :: bareGlyphs "(p)) :act_type ontic))"
    spell gs = prepared text ∧ solid gs = true ∧ spaced gs = true ∧
      Balanced (plain (unifyNewlines text.toList)) ∧ (pass doubleParentheses (prepared text)).2 = 0 ∧
      ∃ f : Forms, f.signs = signs gs ∧ f.orderly = false ∧ ∃ t, f.splice = [t] ∧ scan .levels text ≠ .ok t := by
  intro text gs
  have hspell : spell gs = prepared text := by decide +kernel
  have hsolid : solid gs = true := by decide +kernel
  have hspaced : spaced gs = true := by decide +kernel
  have hbalanced : Balanced (plain (unifyNewlines text.toList)) := (balanced_iff _).2 (by decide +kernel)
  have hdouble : (pass doubleParentheses (prepared text)).2 = 0 := by decide +kernel
  let action : Forms := .leaf ":action" (.leaf "a" (.leaf ":precondition"
    (.list false (.leaf "B(b," (.list true (.leaf "p" .nil) .nil)) (.leaf ":act_type" (.leaf "ontic" .nil)))))
  let f : Forms := .list false (.leaf "define" (.list false action .nil)) .nil
  have hf : f.signs = signs gs := by decide +kernel
  obtain ⟨f', -, hunique, hiff⟩ := scan_eq_splice_iff hspell hsolid hbalanced hdouble
  have heq := hunique f hf
  refine ⟨hspell, hsolid, hspaced, hbalanced, hdouble, f, hf, by decide +kernel, _, rfl, fun hok => ?_⟩
  have horderly := ((hiff _ (.inl hok)).2 hspaced).1 ⟨hok, by rw [← heq]; rfl⟩
  rw [← heq] at horderly
  exact absurd horderly (by decide +kernel)

end Epistemic.Source
