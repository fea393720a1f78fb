import Epistemic.Proofs.ClearedGuards
/-!
# What stands behind `if`

Preconditions and guards are printed as one clause: the formulas that must hold and then, with a hyphen before each,
those that must not, with commas between all of them (`clauseTexts`).  Whether a comma follows a formula is decided
apart for the two signs, by a count, by a flag that is handed on, and by whether there are formulas of the other sign;
the two printers come to the same clause (`perform_preconditions`, `guard_stated`).
-/
namespace Epistemic
namespace MAp

/-- Formulas in the order of printing: those that begin with the belief of one agent, the last of them in front, and
then the others. -/
def printingOrder (cs : List Tree) : List Tree :=
  (cs.filter beginsWithBelief).reverse ++ cs.filter (!beginsWithBelief ·)

/-- The texts of a clause, if all of its formulas can be written. -/
def clauseTexts (positive negative : List Tree) : Except Fault (List String) := do
  let affirmed ← (printingOrder positive).mapM formula
  let denied ← (printingOrder negative).mapM formula
  return affirmed ++ denied.map ("-" ++ ·)

/-- A clause, unless it would be empty. -/
def ifClause (texts : List String) : String := if texts = [] then "" else " if " ++ String.intercalate ", " texts

variable {cs : List Tree}

theorem printingOrder_eq_nil : printingOrder cs = [] ↔ cs = [] := by
  constructor
  · intro h
    obtain ⟨hown, hother⟩ := List.append_eq_nil_iff.1 h
    rw [List.reverse_eq_nil_iff, List.filter_eq_nil_iff] at hown
    rw [List.filter_eq_nil_iff] at hother
    refine List.eq_nil_iff_forall_not_mem.2 fun c hc => hother c hc ?_
    rw [Bool.not_eq_true', ← Bool.not_eq_true]
    exact hown c hc
  · rintro rfl
    rfl

theorem beliefsFirst_of_items (h : ∀ c ∈ cs, c.items ≠ []) : beliefsFirst cs = .ok (printingOrder cs) := by
  have hany : cs.any (·.items.isEmpty) = false := by
    rw [List.any_eq_false]
    intro c hc
    rw [List.isEmpty_iff]
    exact h c hc
  rw [beliefsFirst, hany, if_neg (by decide)]
  rfl

/-! ## Formulas with commas between them -/

theorem mapM_formula_cons {c : Tree} {texts : List String} : (c :: cs).mapM formula = .ok texts ↔
    ∃ text rest, formula c = .ok text ∧ cs.mapM formula = .ok rest ∧ texts = text :: rest := by
  rw [List.mapM_cons, except_bind_eq_ok]
  constructor
  · rintro ⟨text, htext, hrest⟩
    obtain ⟨rest, hrest, hcons⟩ := except_bind_eq_ok.1 hrest
    exact ⟨text, rest, htext, hrest, (Except.ok.inj hcons).symm⟩
  · rintro ⟨text, rest, htext, hrest, rfl⟩
    exact ⟨text, htext, except_bind_eq_ok.2 ⟨rest, hrest, rfl⟩⟩

theorem mapM_formula_eq_nil : cs.mapM formula = .ok [] ↔ cs = [] := by
  cases cs with
  | nil => exact iff_of_true rfl rfl
  | cons c cs =>
    refine iff_of_false (fun h => ?_) (List.cons_ne_nil c cs)
    obtain ⟨text, rest, -, -, hnil⟩ := mapM_formula_cons.1 h
    cases hnil

theorem listed_of_ok (sign : String) (more : Bool) {texts : List String} (h : cs.mapM formula = .ok texts) :
    listed sign more cs =
      (String.intercalate ", " (texts.map (sign ++ ·)) ++ (if more && !texts.isEmpty then ", " else ""), none) := by
  induction cs generalizing texts with
  | nil =>
    cases h
    cases more <;> rfl
  | cons c cs ih =>
    obtain ⟨text, rest, htext, hrest, rfl⟩ := mapM_formula_cons.1 h
    rw [listed, htext]
    simp only [ih hrest]
    by_cases hnil : cs = []
    · subst hnil
      cases hrest
      cases more <;> simp
    · obtain ⟨next, rest, rfl⟩ := List.exists_cons_of_ne_nil fun hempty => hnil (mapM_formula_eq_nil.1 (hempty ▸ hrest))
      simp [hnil, String.append_assoc]

theorem listed_of_error (sign : String) (more : Bool) {e : Fault} (h : cs.mapM formula = .error e) :
    (listed sign more cs).2 = some e := by
  induction cs with
  | nil => cases h
  | cons c cs ih =>
    rw [List.mapM_cons] at h
    rw [listed]
    cases hc : formula c with
    | error f =>
      rw [hc] at h
      cases h
      rfl
    | ok text =>
      rw [hc] at h
      cases hcs : cs.mapM formula with
      | ok texts =>
        rw [hcs] at h
        cases h
      | error f =>
        rw [hcs] at h
        cases h
        exact ih hcs

theorem clauseTexts_eq_ok {positive negative : List Tree} {texts : List String} :
    clauseTexts positive negative = .ok texts ↔ ∃ affirmed denied,
      (printingOrder positive).mapM formula = .ok affirmed ∧
      (printingOrder negative).mapM formula = .ok denied ∧ texts = affirmed ++ denied.map ("-" ++ ·) := by
  rw [clauseTexts, except_bind_eq_ok]
  constructor
  · rintro ⟨affirmed, ha, hrest⟩
    obtain ⟨denied, hd, heq⟩ := except_bind_eq_ok.1 hrest
    exact ⟨affirmed, denied, ha, hd, (Except.ok.inj heq).symm⟩
  · rintro ⟨affirmed, denied, ha, hd, rfl⟩
    exact ⟨affirmed, ha, except_bind_eq_ok.2 ⟨denied, hd, rfl⟩⟩

theorem clauseTexts_eq_error {positive negative : List Tree} {e : Fault}
    (h : clauseTexts positive negative = .error e) : (printingOrder positive).mapM formula = .error e ∨
      (∃ affirmed, (printingOrder positive).mapM formula = .ok affirmed) ∧
        (printingOrder negative).mapM formula = .error e := by
  unfold clauseTexts at h
  cases hp : (printingOrder positive).mapM formula with
  | error f =>
    rw [hp] at h
    cases h
    exact .inl rfl
  | ok affirmed =>
    rw [hp] at h
    refine .inr ⟨⟨affirmed, rfl⟩, ?_⟩
    cases hn : (printingOrder negative).mapM formula with
    | error f =>
      rw [hn] at h
      cases h
      rfl
    | ok denied =>
      rw [hn] at h
      cases h

theorem texts_eq_nil {texts : List String} (h : (printingOrder cs).mapM formula = .ok texts) :
    texts = [] ↔ cs = [] := by
  rw [← printingOrder_eq_nil, ← mapM_formula_eq_nil, h, Except.ok.injEq]

theorem clauseTexts_eq_nil {positive negative : List Tree} {texts : List String}
    (h : clauseTexts positive negative = .ok texts) : texts = [] ↔ positive = [] ∧ negative = [] := by
  obtain ⟨affirmed, denied, ha, hd, rfl⟩ := clauseTexts_eq_ok.1 h
  rw [List.append_eq_nil_iff, List.map_eq_nil_iff, texts_eq_nil ha, texts_eq_nil hd]

/-! ## Preconditions -/

theorem listedInOrder_of_ok (sign : String) (more : Bool) {texts : List String} (hitems : ∀ c ∈ cs, c.items ≠ [])
    (h : (printingOrder cs).mapM formula = .ok texts) : listedInOrder sign more cs =
      (String.intercalate ", " (texts.map (sign ++ ·)) ++ (if more && !texts.isEmpty then ", " else ""), none) := by
  rw [listedInOrder, beliefsFirst_of_items hitems]
  exact listed_of_ok sign more h

theorem listedInOrder_of_error (sign : String) (more : Bool) {e : Fault} (hitems : ∀ c ∈ cs, c.items ≠ [])
    (h : (printingOrder cs).mapM formula = .error e) : ∃ text, listedInOrder sign more cs = (text, some e) := by
  rw [listedInOrder, beliefsFirst_of_items hitems]
  exact ⟨_, Prod.ext rfl (listed_of_error sign more h)⟩

variable {a : Action} (hitems : ∀ c ∈ a.positivePreconditions ++ a.negativePreconditions, c.items ≠ [])

theorem perform_preconditions_none (h : a.positivePreconditions = [] ∧ a.negativePreconditions = []) (sheet : Sheet) :
    (preconditions a).perform sheet = (.ok (), sheet) := by
  rw [preconditions, h.1, h.2]
  rfl

include hitems

/-- **Preconditions are printed as a clause with a semicolon behind it.** -/
theorem perform_preconditions {texts : List String}
    (hsome : ¬ (a.positivePreconditions = [] ∧ a.negativePreconditions = []))
    (htexts : clauseTexts a.positivePreconditions a.negativePreconditions = .ok texts) (sheet : Sheet) :
    (preconditions a).perform sheet = (.ok (), { sheet with text := sheet.text ++ (ifClause texts ++ ";\n") }) := by
  obtain ⟨hitemsPos, hitemsNeg⟩ := List.forall_mem_append.1 hitems
  have hne := mt (clauseTexts_eq_nil htexts).1 hsome
  have hnone : (a.positivePreconditions.isEmpty && a.negativePreconditions.isEmpty) = false := by
    rwa [← Bool.not_eq_true, Bool.and_eq_true, List.isEmpty_iff, List.isEmpty_iff]
  obtain ⟨affirmed, denied, ha, hd, rfl⟩ := clauseTexts_eq_ok.1 htexts
  have hmore : a.negativePreconditions.isEmpty = (denied.map ("-" ++ ·)).isEmpty := by
    rw [Bool.eq_iff_iff, List.isEmpty_iff, List.isEmpty_iff, List.map_eq_nil_iff, texts_eq_nil hd]
  rw [preconditions, hnone, listedInOrder_of_ok "" _ hitemsPos ha, listedInOrder_of_ok "-" _ hitemsNeg hd]
  simp only [Bool.false_eq_true, if_false, writeListed, Sheet.perform_write_bind, Sheet.perform_write]
  -- What is left is that the comma behind the last positive formula stands there exactly if a negative one follows.
  have hjoin : " if " ++ (String.intercalate ", " (affirmed.map ("" ++ ·)) ++
      (if (!a.negativePreconditions.isEmpty && !affirmed.isEmpty) then ", " else "")) ++
      (String.intercalate ", " (denied.map ("-" ++ ·)) ++ (if (false && !denied.isEmpty) then ", " else "")) =
      ifClause (affirmed ++ denied.map ("-" ++ ·)) := by
    rw [ifClause, if_neg hne, hmore]
    by_cases hp : affirmed = []
    · subst hp
      simp
    · by_cases hn : denied = []
      · subst hn
        simp
      · have hdenied : denied.map ("-" ++ ·) ≠ [] := mt List.map_eq_nil_iff.1 hn
        rw [String.intercalate_append_of_ne_nil hp hdenied]
        simp [hp, hn, String.append_assoc]
  rw [← hjoin]
  simp only [String.append_assoc]

/-- A precondition that cannot be written stops the printing. -/
theorem perform_preconditions_error {e : Fault}
    (h : clauseTexts a.positivePreconditions a.negativePreconditions = .error e) (sheet : Sheet) :
    ((preconditions a).perform sheet).1 = .error e := by
  obtain ⟨hitemsPos, hitemsNeg⟩ := List.forall_mem_append.1 hitems
  have hnone : (a.positivePreconditions.isEmpty && a.negativePreconditions.isEmpty) = false := by
    rw [← Bool.not_eq_true, Bool.and_eq_true, List.isEmpty_iff, List.isEmpty_iff]
    rintro ⟨hp, hn⟩
    rw [hp, hn] at h
    cases h
  rw [preconditions, hnone]
  rcases clauseTexts_eq_error h with hp | ⟨⟨affirmed, hp⟩, hn⟩
  · obtain ⟨text, hlisted⟩ := listedInOrder_of_error "" (!a.negativePreconditions.isEmpty) hitemsPos hp
    rw [hlisted]
    rfl
  · obtain ⟨text, hlisted⟩ := listedInOrder_of_error "-" false hitemsNeg hn
    rw [listedInOrder_of_ok "" _ hitemsPos hp, hlisted]
    rfl

omit hitems

/-! ## Guards -/

/-- Conditions with words, of which none is empty, or none at all as that is written out. -/
def AreStated (cs : List Tree) : Prop := cs = blankConditions ∨ ∀ c ∈ cs, IsFull c

theorem AreStated.full (h : AreStated cs) : ∀ c ∈ withoutBlank cs, IsFull c := by
  unfold withoutBlank
  split
  · exact fun c hc => absurd hc List.not_mem_nil
  · rename_i hne
    exact h.resolve_left hne

theorem AreStated.items (h : AreStated cs) : ∀ c ∈ withoutBlank cs, c.items ≠ [] := by
  intro c hc
  obtain ⟨xs, rfl, hne, -⟩ := h.full c hc
  exact hne

theorem AreStated.tidy_eq (h : AreStated cs) : tidy cs = (withoutBlank cs, none) := by
  rcases h with rfl | hfull
  · exact tidy_of_areNone (.inl rfl)
  · have hne : cs ≠ blankConditions := by
      rintro rfl
      obtain ⟨xs, hxs, -, hblank⟩ := hfull (.list [.word ""]) List.mem_cons_self
      cases hxs
      exact hblank List.mem_cons_self
    rw [withoutBlank_of_ne hne]
    exact tidy_of_full hfull

theorem AreStated.left_eq (h : AreStated cs) (positive first : Bool) :
    (conditions positive first cs).left = withoutBlank cs := by
  unfold conditions
  rw [h.tidy_eq]
  split
  · rename_i heq
    cases heq
  · rename_i heq
    exact (congrArg Prod.fst heq).symm
  · rename_i heq
    cases heq
    rcases listedInOrder (signText positive) false (withoutBlank cs) with ⟨text, _ | e⟩ <;> rfl

/-- What printing leaves of conditions is printed as they are. -/
theorem AreStated.again (h : AreStated cs) (positive first : Bool) :
    conditions positive first (withoutBlank cs) = conditions positive first cs := by
  rw [conditions, conditions, h.tidy_eq, tidy_of_full h.full]

theorem AreStated.conditions_of_nil (h : AreStated cs) (hnil : withoutBlank cs = []) (positive first : Bool) :
    conditions positive first cs = ⟨"", [], .ok false⟩ := by
  rw [conditions, h.tidy_eq, hnil]

theorem AreStated.conditions_of_ok (h : AreStated cs) (hne : withoutBlank cs ≠ []) {texts : List String}
    (htexts : (printingOrder (withoutBlank cs)).mapM formula = .ok texts) (positive first : Bool) :
    conditions positive first cs = ⟨(if first then " if " else ", ") ++
      String.intercalate ", " (texts.map (signText positive ++ ·)), withoutBlank cs, .ok first⟩ := by
  have hlisted := listedInOrder_of_ok (signText positive) false h.items htexts
  rw [Bool.false_and, if_neg (by decide), String.append_empty] at hlisted
  obtain ⟨c, rest, hcons⟩ := List.exists_cons_of_ne_nil hne
  rw [hcons] at hlisted
  simp only [conditions, h.tidy_eq, hcons, hlisted]

theorem AreStated.conditions_of_error (h : AreStated cs) {e : Fault}
    (herror : (printingOrder (withoutBlank cs)).mapM formula = .error e) (positive first : Bool) :
    (conditions positive first cs).outcome = .error e := by
  have hne : withoutBlank cs ≠ [] := by
    intro hnil
    rw [hnil] at herror
    cases herror
  obtain ⟨text, hlisted⟩ := listedInOrder_of_error (signText positive) false h.items herror
  obtain ⟨c, rest, hcons⟩ := List.exists_cons_of_ne_nil hne
  rw [hcons] at hlisted
  simp only [conditions, h.tidy_eq, hcons, hlisted]

section
variable {g : Guard} (hpos : AreStated g.positive) (hneg : AreStated g.negative)
include hpos hneg

/-- **A guard is printed as a clause**, and loses nothing but what stands for no condition. -/
theorem guard_stated {texts : List String}
    (htexts : clauseTexts (withoutBlank g.positive) (withoutBlank g.negative) = .ok texts) :
    guard g = ⟨ifClause texts, ⟨withoutBlank g.positive, withoutBlank g.negative⟩, .ok (!texts.isEmpty)⟩ := by
  obtain ⟨affirmed, denied, ha, hd, rfl⟩ := clauseTexts_eq_ok.1 htexts
  unfold guard printBoth ifClause
  -- The negative conditions open the clause only if there are no positive ones.
  by_cases hp : withoutBlank g.positive = []
  · obtain rfl := (texts_eq_nil ha).2 hp
    rw [hpos.conditions_of_nil hp, hp]
    by_cases hn : withoutBlank g.negative = []
    · obtain rfl := (texts_eq_nil hd).2 hn
      simp only [hneg.conditions_of_nil hn, hn]
      rfl
    · have hdenied := mt (texts_eq_nil hd).1 hn
      simp only [hneg.conditions_of_ok hn hd]
      simp [hdenied, signText, Except.map]
  · have haffirmed := mt (texts_eq_nil ha).1 hp
    rw [hpos.conditions_of_ok hp ha]
    by_cases hn : withoutBlank g.negative = []
    · obtain rfl := (texts_eq_nil hd).2 hn
      simp only [hneg.conditions_of_nil hn, hn]
      simp [haffirmed, signText, Except.map]
    · have hdenied : denied.map ("-" ++ ·) ≠ [] := mt List.map_eq_nil_iff.1 (mt (texts_eq_nil hd).1 hn)
      simp only [hneg.conditions_of_ok hn hd]
      rw [if_neg (List.append_ne_nil_of_left_ne_nil haffirmed _),
        String.intercalate_append_of_ne_nil haffirmed hdenied]
      simp [haffirmed, signText, Except.map, String.append_assoc]

theorem guard_stated_error {e : Fault}
    (h : clauseTexts (withoutBlank g.positive) (withoutBlank g.negative) = .error e) :
    (guard g).outcome = .error e := by
  unfold guard printBoth
  rcases clauseTexts_eq_error h with hp | ⟨⟨affirmed, hp⟩, hn⟩
  · simp only [hpos.conditions_of_error hp true true]
  · by_cases hnil : withoutBlank g.positive = []
    · simp only [hpos.conditions_of_nil hnil, hneg.conditions_of_error hn, Except.map]
    · simp only [hpos.conditions_of_ok hnil hp, hneg.conditions_of_error hn, Except.map]

/-- **What printing leaves of a guard is printed as the guard was.** -/
theorem guard_again : guard (guard g).left = guard g := by
  unfold guard printBoth
  cases hout : (conditions true true g.positive).outcome with
  | error e => simp only [hpos.left_eq, hpos.again, hout]
  | ok printed => simp only [hpos.left_eq, hneg.left_eq, hpos.again, hneg.again, hout]

end

/-- **What is printed behind `if`.**  Preconditions with words are printed as one clause with a semicolon behind it, and
as nothing if there are none.  A guard is printed as such a clause without the semicolon, and as nothing if no condition
is withoutBlank; it loses nothing but what stands for no condition, and is printed alike again.  Where a formula cannot
be written, its fault stops the printing. -/
theorem if_clauses_written {a : Action}
    (hitems : ∀ c ∈ a.positivePreconditions ++ a.negativePreconditions, c.items ≠ [])
    {g : Guard} (hpos : AreStated g.positive) (hneg : AreStated g.negative) (sheet : Sheet) :
    (a.positivePreconditions = [] ∧ a.negativePreconditions = [] → (preconditions a).perform sheet = (.ok (), sheet)) ∧
    (¬ (a.positivePreconditions = [] ∧ a.negativePreconditions = []) →
      (∀ affirmed denied, (printingOrder a.positivePreconditions).mapM formula = .ok affirmed →
        (printingOrder a.negativePreconditions).mapM formula = .ok denied →
        (preconditions a).perform sheet = (.ok (), { sheet with text := sheet.text ++
          (" if " ++ String.intercalate ", " (affirmed ++ denied.map ("-" ++ ·)) ++ ";\n") })) ∧
      ∀ e, clauseTexts a.positivePreconditions a.negativePreconditions = .error e →
        ((preconditions a).perform sheet).1 = .error e) ∧
    (withoutBlank g.positive = [] ∧ withoutBlank g.negative = [] → guard g = ⟨"", ⟨[], []⟩, .ok false⟩) ∧
    (¬ (withoutBlank g.positive = [] ∧ withoutBlank g.negative = []) →
      (∀ affirmed denied, (printingOrder (withoutBlank g.positive)).mapM formula = .ok affirmed →
        (printingOrder (withoutBlank g.negative)).mapM formula = .ok denied →
        guard g = ⟨" if " ++ String.intercalate ", " (affirmed ++ denied.map ("-" ++ ·)),
          ⟨withoutBlank g.positive, withoutBlank g.negative⟩, .ok true⟩) ∧
      ∀ e, clauseTexts (withoutBlank g.positive) (withoutBlank g.negative) = .error e → (guard g).outcome = .error e) ∧
    guard (guard g).left = guard g := by
  refine ⟨fun h => perform_preconditions_none h sheet, fun hsome => ⟨fun affirmed denied ha hd => ?_, fun e he => ?_⟩,
    fun h => ?_, fun hsome => ⟨fun affirmed denied ha hd => ?_, fun e he => guard_stated_error hpos hneg he⟩,
    guard_again hpos hneg⟩
  · have htexts := clauseTexts_eq_ok.2 ⟨affirmed, denied, ha, hd, rfl⟩
    rw [perform_preconditions hitems hsome htexts, ifClause, if_neg (mt (clauseTexts_eq_nil htexts).1 hsome)]
  · exact perform_preconditions_error hitems he sheet
  · have htexts : clauseTexts (withoutBlank g.positive) (withoutBlank g.negative) = .ok [] := by
      rw [h.1, h.2]
      rfl
    rw [guard_stated hpos hneg htexts, h.1, h.2]
    rfl
  · have htexts := clauseTexts_eq_ok.2 ⟨affirmed, denied, ha, hd, rfl⟩
    have hne := mt (clauseTexts_eq_nil htexts).1 hsome
    rw [guard_stated hpos hneg htexts, ifClause, if_neg hne, List.isEmpty_eq_false_iff.2 hne]
    rfl

/-- An action with preconditions of both signs. -/
def crossing : Action where
  name := "cross"
  positivePreconditions := [.list [.word "B(a,", .word "open"], .list [.word "lit", .word "x"],
    .list [.word "B(b,", .word "near"]]
  negativePreconditions := [.list [.word "shut"], .list [.word "C(a,b,", .word "open"]]
  observers := .levels [] []

/-- A guard without positive conditions, as it is read. -/
def unlessShut : Guard := ⟨blankConditions, [.list [.word "shut"], .list [.word "B(a,", .word "open"]]⟩

theorem if_clauses_written_both_signs :
    (preconditions crossing).perform {} =
      (.ok (), { text := "" ++ (" if " ++ "B(b,near), B(a,open), lit_x, -shut, -C([a,b],open)" ++ ";\n") }) ∧
    guard unlessShut = ⟨" if " ++ "-B(a,open), -shut", ⟨[], unlessShut.negative⟩, .ok true⟩ ∧
    guard (guard unlessShut).left = guard unlessShut := by
  have hitems : ∀ c ∈ crossing.positivePreconditions ++ crossing.negativePreconditions, c.items ≠ [] := by decide
  have hneg : AreStated unlessShut.negative := by
    refine .inr (List.forall_mem_cons.2 ⟨?_, List.forall_mem_singleton.2 ?_⟩)
    · exact ⟨_, rfl, by decide, by decide⟩
    · exact ⟨_, rfl, by decide, by decide⟩
  obtain ⟨-, hwritten, -, hguard, hagain⟩ := if_clauses_written hitems (.inl rfl) hneg {}
  refine ⟨?_, ?_, hagain⟩
  · exact (hwritten (by decide)).1 ["B(b,near)", "B(a,open)", "lit_x"] ["shut", "C([a,b],open)"] rfl rfl
  · exact (hguard (by decide)).1 [] ["B(a,open)", "shut"] rfl rfl

end MAp
end Epistemic
