import Epistemic.Text.Part
/-!
# Places in a text

A piece stands in a text where the text can be cut before and behind it (`occurs_iff_isInfix`).  A text is split at the
first of these places or at the last, and what stands between two marks reaches from the first to the last
(`bracketed?_eq_some`).
-/
namespace Epistemic.Text

theorem occurs_iff_isInfix {piece : List Char} : ∀ {cs : List Char}, occurs piece cs = true ↔ piece <:+: cs
  | [] => by rw [occurs, List.isEmpty_iff, List.infix_nil]
  | c :: cs => by
    rw [occurs, Bool.or_eq_true, List.isPrefixOf_iff_prefix, List.infix_cons_iff, occurs_iff_isInfix]

section
variable {piece : List Char}

theorem splitFirst?_eq_none : ∀ {cs : List Char}, splitFirst? piece cs = none → ¬ piece <:+: cs
  | [], h, hpiece => by
    rw [List.infix_nil.1 hpiece] at h
    cases h
  | c :: cs, h, hpiece => by
    unfold splitFirst? at h
    split at h
    · cases h
    · rename_i hc
      rcases List.infix_cons_iff.1 hpiece with hfirst | hrest
      · exact hc (List.isPrefixOf_iff_prefix.2 hfirst)
      · exact splitFirst?_eq_none (Option.map_eq_none_iff.1 h) hrest

/-- **The first place of a piece**: wherever it stands, it does not stand before. -/
theorem splitFirst?_eq_some : ∀ {cs before after : List Char}, splitFirst? piece cs = some (before, after) →
    cs = before ++ piece ++ after ∧ ∀ s t, cs = s ++ piece ++ t → before.length ≤ s.length
  | [], before, after, h => by
    unfold splitFirst? at h
    split at h <;> cases h
    rename_i hpiece
    exact ⟨by simpa using hpiece, fun s t _ => Nat.zero_le _⟩
  | c :: cs, before, after, h => by
    unfold splitFirst? at h
    split at h
    · rename_i hc
      cases h
      exact ⟨List.prefix_iff_eq_append.1 (List.isPrefixOf_iff_prefix.1 hc) |>.symm, fun s t _ => Nat.zero_le _⟩
    · rename_i hc
      obtain ⟨⟨b, a⟩, hrest, heq⟩ := Option.map_eq_some_iff.1 h
      cases heq
      obtain ⟨hcs, hfirst⟩ := splitFirst?_eq_some hrest
      refine ⟨by rw [hcs]; rfl, fun s t hst => ?_⟩
      cases s with
      | nil => exact absurd (List.isPrefixOf_iff_prefix.2 ⟨t, hst.symm⟩) hc
      | cons d s => exact Nat.succ_le_succ (hfirst s t (List.cons.inj hst).2)

theorem splitLast?_eq_none : ∀ {cs : List Char}, splitLast? piece cs = none → ¬ piece <:+: cs
  | [], h, hpiece => by
    rw [List.infix_nil.1 hpiece] at h
    cases h
  | c :: cs, h, hpiece => by
    unfold splitLast? at h
    split at h
    · cases h
    · rename_i hrest
      split at h
      · cases h
      · rename_i hc
        rcases List.infix_cons_iff.1 hpiece with hfirst | hlater
        · exact hc (List.isPrefixOf_iff_prefix.2 hfirst)
        · exact splitLast?_eq_none hrest hlater

/-- **The last place of a piece**: wherever it stands, it does not stand behind. -/
theorem splitLast?_eq_some : ∀ {cs before after : List Char}, splitLast? piece cs = some (before, after) →
    cs = before ++ piece ++ after ∧ ∀ s t, cs = s ++ piece ++ t → s.length ≤ before.length
  | [], before, after, h => by
    unfold splitLast? at h
    split at h <;> cases h
    rename_i hpiece
    refine ⟨by simpa using hpiece, fun s t hst => ?_⟩
    exact Nat.le_of_eq (by rw [(List.append_eq_nil_iff.1 (List.append_eq_nil_iff.1 hst.symm).1).1])
  | c :: cs, before, after, h => by
    unfold splitLast? at h
    split at h
    · rename_i b a hrest
      cases h
      obtain ⟨hcs, hlast⟩ := splitLast?_eq_some hrest
      refine ⟨by rw [hcs]; rfl, fun s t hst => ?_⟩
      cases s with
      | nil => exact Nat.zero_le _
      | cons d s => exact Nat.succ_le_succ (hlast s t (List.cons.inj hst).2)
    · rename_i hrest
      split at h
      · rename_i hc
        cases h
        refine ⟨List.prefix_iff_eq_append.1 (List.isPrefixOf_iff_prefix.1 hc) |>.symm, fun s t hst => ?_⟩
        cases s with
        | nil => exact Nat.zero_le _
        | cons d s => exact absurd ⟨s, t, (List.cons.inj hst).2.symm⟩ (splitLast?_eq_none hrest)
      · cases h

end

/-! ## Between two marks -/

section
variable {opening closing : List Char}

theorem bracketed?_of_splits {cs before rest inner after : List Char}
    (hfirst : splitFirst? opening cs = some (before, rest)) (hlast : splitLast? closing rest = some (inner, after)) :
    bracketed? opening closing cs = if inner.isEmpty then none else some (before, inner, after) := by
  rw [bracketed?, hfirst]
  simp only [Option.bind_eq_bind, Option.bind_some, hlast]

/-- **What stands between marks** begins with the first opening mark and ends with the last closing mark behind it. -/
theorem bracketed?_eq_some {cs before inner after : List Char}
    (h : bracketed? opening closing cs = some (before, inner, after)) :
    cs = before ++ opening ++ (inner ++ closing ++ after) ∧ inner ≠ [] ∧
      (∀ s t, cs = s ++ opening ++ t → before.length ≤ s.length) ∧
      ∀ s t, inner ++ closing ++ after = s ++ closing ++ t → s.length ≤ inner.length := by
  obtain ⟨⟨b, rest⟩, hfirst, hrest⟩ := Option.bind_eq_some_iff.1 h
  obtain ⟨⟨i, a⟩, hlast, -⟩ := Option.bind_eq_some_iff.1 hrest
  rw [bracketed?_of_splits hfirst hlast] at h
  split at h <;> cases h
  rename_i hne
  obtain ⟨hcs, hbefore⟩ := splitFirst?_eq_some hfirst
  obtain ⟨rfl, hinner⟩ := splitLast?_eq_some hlast
  exact ⟨hcs, by simpa using hne, hbefore, hinner⟩

end
end Epistemic.Text
