import Epistemic.Proofs.Documents
import Mathlib.Logic.ExistsUnique
/-!
# Names in sets of ten

A document in mAp declares its fluents, its actions and its agents in statements of ten names.  There is one way to cut
names into sets of which each but the last has ten (`existsUnique_inTens`), and what is written behind the keyword of a
section is these sets in order, with commas between the names of a set and a new statement between two sets
(`listing_flatten`).
-/
namespace Epistemic
namespace MAp

open Draft (write)
open Work (Keeps)

/-! ## Sets of ten -/

/-- **Names in sets of ten**: each set but the last has ten names, and the last has one to ten. -/
inductive InTens : List (List String) → Prop
  | none : InTens []
  | last {names : List String} (hne : names ≠ []) (hle : names.length ≤ 10) : InTens [names]
  | full {names next : List String} {groups : List (List String)} (hlength : names.length = 10)
      (h : InTens (next :: groups)) : InTens (names :: next :: groups)

theorem InTens.head_ne_nil {names : List String} {groups : List (List String)} (h : InTens (names :: groups)) :
    names ≠ [] := by
  cases h with
  | last hne _ => exact hne
  | full hlength _ =>
    rintro rfl
    cases hlength

theorem exists_inTens (names : List String) : ∃ groups, InTens groups ∧ groups.flatten = names := by
  -- a set takes ten names off, so the induction is on their number
  induction hn : names.length using Nat.strongRecOn generalizing names with
  | _ n ih =>
    subst hn
    by_cases hnil : names = []
    · exact ⟨[], .none, hnil.symm⟩
    · by_cases hle : names.length ≤ 10
      · exact ⟨[names], .last hnil hle, by simp⟩
      · have hlt : (names.drop 10).length < names.length := by
          rw [List.length_drop]
          omega
        obtain ⟨groups, hgroups, hflatten⟩ := ih _ hlt (names.drop 10) rfl
        cases groups with
        | nil =>
          have hlength := congrArg List.length hflatten
          rw [List.length_drop, List.flatten_nil, List.length_nil] at hlength
          omega
        | cons next groups =>
          refine ⟨names.take 10 :: next :: groups, .full (by rw [List.length_take]; omega) hgroups, ?_⟩
          rw [List.flatten_cons, hflatten, List.take_append_drop]

theorem InTens.eq_of_flatten {gs hs : List (List String)} (hg : InTens gs) (hh : InTens hs)
    (h : gs.flatten = hs.flatten) : gs = hs := by
  -- a set that is followed by another is longer with it than a last one can be
  have hlong : ∀ {names next : List String} {groups : List (List String)}, names.length = 10 → InTens (next :: groups) →
      10 < (names :: next :: groups).flatten.length := by
    intro names next groups hlength hnext
    have hpos := List.length_pos_iff.2 hnext.head_ne_nil
    simp only [List.flatten_cons, List.length_append, hlength]
    omega
  induction hg generalizing hs with
  | none =>
    cases hs with
    | nil => rfl
    | cons names groups =>
      rw [List.flatten_nil, List.flatten_cons, eq_comm, List.append_eq_nil_iff] at h
      exact absurd h.1 hh.head_ne_nil
  | @last names hne hle =>
    cases hh with
    | none => exact absurd (by simpa using h) hne
    | last _ _ => simpa using h
    | full hlength hnext =>
      have := hlong hlength hnext
      rw [← h, List.flatten_singleton] at this
      omega
  | @full names next groups hlength hnext ih =>
    cases hh with
    | none =>
      have := hlong hlength hnext
      rw [h] at this
      cases this
    | last _ hle =>
      have := hlong hlength hnext
      rw [h, List.flatten_singleton] at this
      omega
    | full hlength' hnext' =>
      rw [List.flatten_cons, List.flatten_cons (l := _)] at h
      obtain ⟨rfl, hrest⟩ := List.append_inj h (hlength.trans hlength'.symm)
      rw [ih hnext' hrest]

/-- **Names are cut into sets of ten in one way.** -/
theorem existsUnique_inTens (names : List String) : ∃! groups, InTens groups ∧ groups.flatten = names := by
  obtain ⟨groups, hgroups, hflatten⟩ := exists_inTens names
  exact ⟨groups, ⟨hgroups, hflatten⟩, fun gs hgs => hgs.1.eq_of_flatten hgroups (hgs.2.trans hflatten.symm)⟩

/-! ## Listings -/

/-- Sets of names: a comma between two names of a set, and the end of a statement and a new keyword between two sets. -/
def inSets (keyword : String) (groups : List (List String)) : String :=
  String.intercalate (";\n" ++ keyword ++ " ") (groups.map (String.intercalate ", "))

section
variable {keyword : String}

theorem listingFrom_cons_cons (i : Nat) (x y : String) (names : List String) :
    listingFrom keyword i (x :: y :: names) = x ++ separator keyword i ++ listingFrom keyword (i + 1) (y :: names) :=
  rfl

theorem separator_within {i : Nat} (h : i % 10 < 9) : separator keyword i = ", " :=
  if_neg (by rw [beq_iff_eq]; omega)

theorem separator_tenth {i : Nat} (h : i % 10 = 9) : separator keyword i = ";\n" ++ keyword ++ " " :=
  if_pos (by rw [beq_iff_eq]; omega)

/-- A set that is not passed by a tenth name is listed with commas. -/
theorem listingFrom_set : ∀ {names : List String} {i : Nat}, i % 10 + names.length ≤ 10 →
    listingFrom keyword i names = String.intercalate ", " names
  | [], _, _ => rfl
  | [x], _, _ => by rw [listingFrom, String.intercalate_singleton]
  | x :: y :: names, i, h => by
    rw [List.length_cons, List.length_cons] at h
    rw [listingFrom_cons_cons, separator_within (by omega), listingFrom_set (by rw [List.length_cons]; omega),
      String.intercalate_cons_cons]

/-- **Behind a set that ends with a tenth name a new statement begins.** -/
theorem listingFrom_append {next : List String} (hnext : next ≠ []) : ∀ {names : List String} {i : Nat}, names ≠ [] →
    i % 10 + names.length = 10 → listingFrom keyword i (names ++ next) =
      String.intercalate ", " names ++ (";\n" ++ keyword ++ " ") ++ listingFrom keyword (i + names.length) next
  | [x], i, _, h => by
    obtain ⟨y, next, rfl⟩ := List.exists_cons_of_ne_nil hnext
    rw [List.length_singleton] at h
    rw [List.singleton_append, listingFrom_cons_cons, separator_tenth (by omega), String.intercalate_singleton,
      List.length_singleton]
  | x :: y :: names, i, _, h => by
    rw [List.length_cons, List.length_cons] at h
    have hrest := listingFrom_append hnext (i := i + 1) (List.cons_ne_nil y names) (by rw [List.length_cons]; omega)
    rw [List.cons_append] at hrest
    have hplace : i + 1 + (y :: names).length = i + (x :: y :: names).length := by
      rw [List.length_cons (a := x)]
      omega
    rw [List.cons_append, List.cons_append, listingFrom_cons_cons, separator_within (by omega), hrest, hplace,
      String.intercalate_cons_cons]
    simp only [String.append_assoc]

/-- **What is written behind a keyword is the names in sets of ten.** -/
theorem listing_flatten {groups : List (List String)} (h : InTens groups) :
    listing keyword groups.flatten = inSets keyword groups := by
  suffices ∀ i, i % 10 = 0 → listingFrom keyword i groups.flatten = inSets keyword groups from this 0 rfl
  induction h with
  | none => exact fun _ _ => rfl
  | @last names _ hle =>
    intro i hi
    rw [List.flatten_singleton, listingFrom_set (by omega), inSets, List.map_singleton, String.intercalate_singleton]
  | @full names next groups hlength hnext ih =>
    intro i hi
    have hne : (next :: groups).flatten ≠ [] := by
      rw [List.flatten_cons]
      exact List.append_ne_nil_of_left_ne_nil hnext.head_ne_nil _
    have hnames : names ≠ [] := by
      rintro rfl
      cases hlength
    rw [List.flatten_cons, listingFrom_append hne hnames (by omega), ih _ (by omega)]
    simp only [inSets, List.map_cons, String.intercalate_cons_cons, String.append_assoc]

end

/-! ## Sections -/

/-- What stands before the keyword of the fluents. -/
def fluentHead : String :=
  "%%%%%%%%%%%%%%%%%%%%%%%%%    FLUENTS    %%%%%%%%%%%%%%%%%%%%%%%%\n" ++
  "%Fluents generated from EPDDL by grounding each predicate (and cheking in :init, :goal and actions for extra " ++
  "predicates)\n" ++
  "%The fluents are lexicographically sorted and printed in sets of 10\n\n"

/-- What stands before the keyword of the actions. -/
def actionHead : String :=
  "%%%%%%%%%%%%%%%%%%%%%    ACTIONS' NAMES    %%%%%%%%%%%%%%%%%%%%%\n" ++
  "%Actions' names generated from EPDDL by adding to each action names its grounded predicates\n\n"

/-- What stands before the keyword of the agents. -/
def agentHead : String :=
  "%%%%%%%%%%%%%%%%%%%%%    AGENTS' NAMES    %%%%%%%%%%%%%%%%%%%%%%\n" ++
  "%Agents' names generated from EPDDL by looking at the 'agent' predicate\n\n"

/-- A section that declares names: the keyword and a blank, the names in sets, and a semicolon. -/
def declaring (head keyword : String) (groups : List (List String)) : String :=
  head ++ (keyword ++ " " ++ inSets keyword groups ++ ";") ++ ("\n\n" ++ rule ++ "\n\n")

theorem declaring_eq (head keyword : String) (groups : List (List String)) : declaring head keyword groups =
    head ++ (keyword ++ " ") ++ inSets keyword groups ++ (";" ++ "\n\n") ++ rule ++ "\n\n" := by
  simp only [declaring, String.append_assoc]

theorem fluentSection_eq (names : List String) : fluentSection names =
    fluentHead ++ "fluent " ++ listing "fluent" names ++ ";\n\n" ++ rule ++ "\n\n" := rfl

theorem actionNameSection_eq (names : List String) : actionNameSection names =
    actionHead ++ "action " ++ listing "action" names ++ ";\n\n" ++ rule ++ "\n\n" := rfl

theorem semicolon_eq : ";\n\n" = ";" ++ "\n\n" := by decide

section
variable {groups : List (List String)} (h : InTens groups)
include h

theorem fluentSection_flatten : fluentSection groups.flatten = declaring fluentHead "fluent" groups := by
  have hkeyword : "fluent " = "fluent" ++ " " := by decide
  rw [fluentSection_eq, declaring_eq, listing_flatten h, hkeyword, semicolon_eq]

theorem actionNameSection_flatten : actionNameSection groups.flatten = declaring actionHead "action" groups := by
  have hkeyword : "action " = "action" ++ " " := by decide
  rw [actionNameSection_eq, declaring_eq, listing_flatten h, hkeyword, semicolon_eq]

omit h in
theorem listingOfTrees_words (keyword : String) (names : List String) :
    listingOfTrees keyword (names.map .word) = (listing keyword names, none) := by
  have hbefore : ∀ names : List String, namesBefore (names.map .word) = names := by
    intro names
    induction names with
    | nil => rfl
    | cons x names ih => rw [List.map_cons, namesBefore, ih]
  simp only [listingOfTrees, hbefore, List.length_map, beq_self_eq_true, if_true]

theorem perform_agentSection {d : Domain} (hagents : d.agents = .ok (groups.flatten.map .word)) (draft : Draft) :
    (agentSection d).perform draft =
      (.ok (), { draft with text := draft.text ++ declaring agentHead "agent" groups }) := by
  have hkeyword : "agent " = "agent" ++ " " := by decide
  rw [agentSection, perform_write_bind, hagents, Work.perform_bind_ok (Work.perform_ofExcept _ _)]
  simp only [listingOfTrees_words]
  rw [perform_write_bind, listing_flatten h]
  refine congrArg (fun text => (Except.ok (), { draft with text := text })) ?_
  show draft.text ++ (agentHead ++ "agent ") ++ inSets "agent" groups ++ (";\n\n" ++ rule ++ "\n\n") = _
  rw [declaring_eq, hkeyword, semicolon_eq]
  simp only [String.append_assoc]

end

/-- What a document has declared when it comes to its agents. -/
def declaredBefore (t : Task) (d : Domain) (g : Grounding) : String :=
  title ++ fluentSection (declaredFluents t d) ++ actionNameSection (g.actions.reverse.map (·.action.name))

/-- **A document begins with what it declares**, however far it is written, once the task has been ground. -/
theorem document_begins {t : Task} {d : Domain} {g : Grounding} (hground : (groundTask t d).perform {} = (.ok (), g))
    (p : Problem) (draft : Draft) :
    ((document t d p).perform draft).2.Begins (draft.text ++ declaredBefore t d g) ∧
    ∀ groups, InTens groups → d.agents = .ok (groups.flatten.map .word) →
      ((document t d p).perform draft).2.Begins
        (draft.text ++ declaredBefore t d g ++ declaring agentHead "agent" groups) := by
  have hrest : ∀ start, Keeps (Draft.Begins start) (actionSection t.dialect d g.actions.reverse >>= fun _ =>
      truthSection (declaredFluents t d) p >>= fun found => write (beliefSection (sorted found.beliefs)) >>= fun _ =>
        goalSection p) := fun start =>
    (keeps_actionSection _ _ _).bind fun _ => (keeps_truthSection Draft.open_begins _ _).bind fun _ =>
      (keeps_write _).bind fun _ => keeps_goalSection Draft.open_begins p
  have hrun : (document t d p).perform draft = (agentSection d >>= fun _ =>
      actionSection t.dialect d g.actions.reverse >>= fun _ => truthSection (declaredFluents t d) p >>= fun found =>
        write (beliefSection (sorted found.beliefs)) >>= fun _ =>
        goalSection p).perform { draft with text := draft.text ++ declaredBefore t d g } := by
    rw [document, perform_write_bind, declaredBefore, declaredFluents, hground, ← String.append_assoc,
      ← String.append_assoc]
    simp only
    rw [Work.perform_bind_ok (Work.perform_ofExcept _ _), perform_write_bind, perform_write_bind]
    rfl
  rw [hrun]
  refine ⟨?_, fun groups hgroups hagents => ?_⟩
  · exact ((keeps_agentSection Draft.open_begins d).bind fun _ => hrest _) _ ⟨"", by simp⟩
  · rw [Work.perform_bind_ok (perform_agentSection hgroups hagents _)]
    exact hrest _ _ ⟨"", by simp⟩

/-- **Names are declared in sets of ten.**  There is one way to cut names into sets of which each but the last has ten;
the sections of fluents, actions and agents hold these sets in order behind their keyword, with a comma between two
names of a set, the end of a statement and a new keyword between two sets, and a semicolon behind the last; and a
document of a task that can be ground begins with these sections, for the fluents that it declares, its ground actions
and its agents. -/
theorem document_lists_names :
    (∀ names : List String, ∃! groups, InTens groups ∧ groups.flatten = names) ∧
    (∀ groups, InTens groups →
      fluentSection groups.flatten = declaring fluentHead "fluent" groups ∧
      actionNameSection groups.flatten = declaring actionHead "action" groups ∧
      ∀ (d : Domain) (draft : Draft), d.agents = .ok (groups.flatten.map .word) →
        (agentSection d).perform draft =
          (.ok (), { draft with text := draft.text ++ declaring agentHead "agent" groups })) ∧
    ∀ (t : Task) (d : Domain) (p : Problem) (draft : Draft) (g : Grounding), (groundTask t d).perform {} = (.ok (), g) →
      ∃ fluents actions rest, InTens fluents ∧ fluents.flatten = declaredFluents t d ∧
        InTens actions ∧ actions.flatten = g.actions.reverse.map (·.action.name) ∧
        ((document t d p).perform draft).2.text = draft.text ++ title ++ declaring fluentHead "fluent" fluents ++
          declaring actionHead "action" actions ++ rest ∧
        ∀ names : List String, d.agents = .ok (names.map .word) →
          ∃ agents more, InTens agents ∧ agents.flatten = names ∧
            rest = declaring agentHead "agent" agents ++ more := by
  refine ⟨existsUnique_inTens, fun groups h => ⟨fluentSection_flatten h, actionNameSection_flatten h,
    fun d draft hagents => perform_agentSection h hagents draft⟩, fun t d p draft g hground => ?_⟩
  obtain ⟨fluents, hfluents, hflatten⟩ := exists_inTens (declaredFluents t d)
  obtain ⟨actions, hactions, hnames⟩ := exists_inTens (g.actions.reverse.map (·.action.name))
  obtain ⟨⟨rest, hrest⟩, hagents⟩ := document_begins hground p draft
  rw [declaredBefore, ← hflatten, ← hnames, fluentSection_flatten hfluents, actionNameSection_flatten hactions,
    ← String.append_assoc, ← String.append_assoc] at hrest hagents
  refine ⟨fluents, actions, rest, hfluents, hflatten, hactions, hnames, hrest, fun names hdeclared => ?_⟩
  obtain ⟨agents, hcut, rfl⟩ := exists_inTens names
  obtain ⟨more, hmore⟩ := hagents agents hcut hdeclared
  exact ⟨agents, more, hcut, rfl, (String.append_right_inj _).1 (hrest.symm.trans (hmore.trans String.append_assoc))⟩

/-- A room with two agents. -/
def lampRoom : Domain := { objects := [("agent", [.word "ann", .word "bob"])] }

/-- Eleven lamps in it that are lit at first. -/
def lampsLit : Problem where
  state := ["l0", "l1", "l2", "l3", "l4", "l5", "l6", "l7", "l8", "l9", "la"].map fun l => .list [.word l]

/-- Twelve names are ten and two, and what is written of a task is found by its sections. -/
theorem document_lists_names_lamps :
    (fluentSection ["l0", "l1", "l2", "l3", "l4", "l5", "l6", "l7", "l8", "l9", "la", "lb"] = fluentHead ++
      "fluent l0, l1, l2, l3, l4, l5, l6, l7, l8, l9;\nfluent la, lb;" ++ ("\n\n" ++ rule ++ "\n\n")) ∧
    ∃ g, (groundTask ⟨.levels, some lampRoom, some lampsLit, none⟩ lampRoom).perform {} = (.ok (), g) ∧
      lampRoom.agents = .ok (["ann", "bob"].map .word) ∧ ∃ fluents actions agents more,
        InTens fluents ∧ fluents.flatten = declaredFluents ⟨.levels, some lampRoom, some lampsLit, none⟩ lampRoom ∧
        InTens agents ∧ agents.flatten = ["ann", "bob"] ∧
        ((document ⟨.levels, some lampRoom, some lampsLit, none⟩ lampRoom lampsLit).perform {}).2.text =
          "" ++ title ++ declaring fluentHead "fluent" fluents ++ declaring actionHead "action" actions ++
            (declaring agentHead "agent" agents ++ more) := by
  have htens : InTens [["l0", "l1", "l2", "l3", "l4", "l5", "l6", "l7", "l8", "l9"], ["la", "lb"]] :=
    .full rfl (.last (by decide) (by decide))
  have hground := Work.ok_of_isOk (w := groundTask ⟨.levels, some lampRoom, some lampsLit, none⟩ lampRoom) (s := {})
    (by decide +kernel)
  have hagents : lampRoom.agents = .ok (["ann", "bob"].map .word) := rfl
  obtain ⟨-, hsections, hdocument⟩ := document_lists_names
  refine ⟨(hsections _ htens).1.trans ?_, _, hground, hagents, ?_⟩
  · have hnames : "fluent" ++ " " ++ inSets "fluent"
        [["l0", "l1", "l2", "l3", "l4", "l5", "l6", "l7", "l8", "l9"], ["la", "lb"]] ++ ";" =
        "fluent l0, l1, l2, l3, l4, l5, l6, l7, l8, l9;\nfluent la, lb;" := by decide +kernel
    rw [declaring, hnames]
  · obtain ⟨fluents, actions, rest, hfluents, hflatten, -, -, htext, hrest⟩ := hdocument _ _ lampsLit {} _ hground
    obtain ⟨agents, more, hcut, hboth, rfl⟩ := hrest _ hagents
    exact ⟨fluents, actions, agents, more, hfluents, hflatten, hcut, hboth, htext⟩

end MAp
end Epistemic
