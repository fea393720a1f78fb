import Epistemic.Proofs.EnclosedFormulas
import Epistemic.Proofs.Layout
/-!
# Beliefs in a negated atom

A belief is written as a group of agents in brackets before what is believed, which may be a belief again.  The text is
read as it stands: a type behind the last agent of a group goes, and all parentheses stay (`Source.scan_around`).  When
the belief is filed, a negation right behind its first operator is drawn into the atom, and one that stands deeper is
left where it is.  So the belief in a negated atom is printed with a negated atom exactly if it has one operator
(`negatedBelief_rendered_iff`).
-/
namespace Epistemic
namespace Source

open Text (isBlank)

/-! ## The agents of a group -/

/-- The name of an agent without the type behind it, unless it is nothing but a type. -/
def withoutType (w : String) : String :=
  if "-agent".toList <:+ w.toList ∧ w ≠ "-agent" then String.ofList (w.toList.take (w.toList.length - 6)) else w

/-- The agents of a group, without the type behind the last of them. -/
def agentsOf : List String → List String
  | [] => []
  | [w] => [withoutType w]
  | v :: w :: ws => if ws = [] ∧ w = "-agent" then [v] else v :: agentsOf (w :: ws)

/-- What stands in the brackets of a group when the type is taken out. -/
def bareText : List String → List Char
  | [] => []
  | [w] => (withoutType w).toList
  | v :: w :: ws => v.toList ++ ' ' :: if ws = [] ∧ w = "-agent" then [] else bareText (w :: ws)

theorem withoutType_cases (w : String) :
    (∃ x, x ≠ [] ∧ w.toList = x ++ "-agent".toList ∧ (withoutType w).toList = x) ∨
    (withoutType w = w ∧ ∀ x, x ≠ [] → w.toList ≠ x ++ "-agent".toList) := by
  unfold withoutType
  by_cases h : "-agent".toList <:+ w.toList ∧ w ≠ "-agent"
  · rw [if_pos h]
    obtain ⟨⟨x, hx⟩, hne⟩ := h
    refine .inl ⟨x, ?_, hx.symm, ?_⟩
    · rintro rfl
      exact hne (String.toList_injective hx.symm)
    · rw [← hx, String.toList_ofList, List.length_append]
      exact List.take_left' (by simp)
  · rw [if_neg h]
    refine .inr ⟨rfl, fun x hx heq => h ⟨⟨x, heq.symm⟩, ?_⟩⟩
    rintro rfl
    exact hx (List.self_eq_append_left.1 heq)

theorem isPlainWord_withoutType {w : String} (h : IsPlainWord w) : IsPlainWord (withoutType w) := by
  rcases withoutType_cases w with ⟨x, hx, hw, hbare⟩ | ⟨hsame, -⟩
  · refine ⟨hbare ▸ hx, fun c hc => h.2 c ?_⟩
    rw [hw]
    exact List.mem_append_left _ (hbare ▸ hc)
  · rw [hsame]
    exact h

theorem isPlainWord_of_mem_agentsOf {ws : List String} (h : ∀ w ∈ ws, IsPlainWord w) :
    ∀ a ∈ agentsOf ws, IsPlainWord a := by
  fun_induction agentsOf ws with
  | case1 => simp
  | case2 w => simpa using isPlainWord_withoutType (h w List.mem_cons_self)
  | case3 v w ws hlast => simpa using h v List.mem_cons_self
  | case4 v w ws hlast ih =>
    obtain ⟨hv, hws⟩ := List.forall_mem_cons.1 h
    exact List.forall_mem_cons.2 ⟨hv, ih hws⟩

theorem agentText_cons_cons (v w : String) (ws : List String) :
    agentText (v :: w :: ws) = v.toList ++ ' ' :: agentText (w :: ws) := by
  simp [agentText, List.intercalate_cons_cons]

/-- A text of several words has a blank, which a type has not. -/
theorem eq_type_of_agentText {w : String} {ws : List String} (h : agentText (w :: ws) = "-agent".toList) :
    ws = [] ∧ w = "-agent" := by
  cases ws with
  | nil =>
    refine ⟨rfl, String.toList_injective ?_⟩
    rwa [agentText, List.map_singleton, List.intercalate_singleton] at h
  | cons v ws =>
    rw [agentText_cons_cons] at h
    have hblank : ' ' ∈ "-agent".toList := by
      rw [← h]
      simp
    exact absurd hblank (by decide)

/-- **A type ends the text of a group exactly if it is taken out of it.** -/
theorem bareText_cases : ∀ {ws : List String}, ws ≠ [] →
    (∃ x, x ≠ [] ∧ agentText ws = x ++ "-agent".toList ∧ bareText ws = x) ∨
    (bareText ws = agentText ws ∧ ∀ x, x ≠ [] → agentText ws ≠ x ++ "-agent".toList)
  | [], h => absurd rfl h
  | [w], _ => by
    rw [agentText, List.map_singleton, List.intercalate_singleton, bareText]
    exact (withoutType_cases w).imp id fun h => ⟨congrArg String.toList h.1, h.2⟩
  | v :: w :: ws, _ => by
    rw [agentText_cons_cons, bareText]
    by_cases hlast : ws = [] ∧ w = "-agent"
    · obtain ⟨rfl, rfl⟩ := hlast
      refine .inl ⟨v.toList ++ [' '], by simp, ?_, by simp⟩
      simp [agentText]
    · rw [if_neg hlast]
      rcases @bareText_cases (w :: ws) (by simp) with ⟨x, -, hx, hbare⟩ | ⟨hbare, hnone⟩
      · exact .inl ⟨v.toList ++ ' ' :: x, by simp, by simp [hx], by rw [hbare]⟩
      · refine .inr ⟨by rw [hbare], fun x _ heq => ?_⟩
        -- the type reaches back to the blank before the other words, or stands within them
        rcases List.append_eq_append_iff.1 heq with ⟨y, -, hy⟩ | ⟨y, -, hy⟩
        · cases y with
          | nil => exact absurd (List.cons.inj hy).1 (by decide)
          | cons c y =>
            rw [List.cons_append, List.cons.injEq] at hy
            by_cases hnil : y = []
            · subst hnil
              exact hlast (eq_type_of_agentText hy.2)
            · exact hnone y hnil hy.2
        · have hblank : ' ' ∈ "-agent".toList := by
            rw [hy]
            simp
          exact absurd hblank (by decide)

theorem bareText_not_mem {ws : List String} (h : ∀ w ∈ ws, IsPlainWord w) {d : Char} (hd : isWordChar d = false)
    (hblank : d ≠ ' ') : d ∉ bareText ws := by
  fun_induction bareText ws with
  | case1 => exact List.not_mem_nil
  | case2 w => exact (isPlainWord_withoutType (h w List.mem_cons_self)).not_mem hd
  | case3 v w ws ih =>
    obtain ⟨hv, hws⟩ := List.forall_mem_cons.1 h
    rw [List.mem_append, List.mem_cons, not_or, not_or]
    refine ⟨hv.not_mem hd, hblank, ?_⟩
    split
    · exact List.not_mem_nil
    · exact ih hws

theorem tokens_blank_cons (k : List Char) : tokens (' ' :: k) = tokens k := rfl

/-- **The text of a group without its type has the agents for tokens.** -/
theorem tokens_bareText {ws : List String} (h : ∀ w ∈ ws, IsPlainWord w) (k : List Char) :
    tokens (bareText ws ++ ']' :: k) = (agentsOf ws).map .word ++ .closeAgents :: tokens k := by
  have hclose : tokens (']' :: k) = .closeAgents :: tokens k := rfl
  fun_induction bareText ws with
  | case1 => exact hclose
  | case2 w =>
    rw [tokens_word (isPlainWord_withoutType (h w List.mem_cons_self)) (delimited_cons (by decide) k), hclose]
    rfl
  | case3 v w ws ih =>
    obtain ⟨hv, hws⟩ := List.forall_mem_cons.1 h
    rw [List.append_assoc, List.cons_append, tokens_word hv (delimited_cons (by decide) _), tokens_blank_cons, agentsOf]
    split
    · rw [List.nil_append, hclose]
      rfl
    · rw [ih hws]
      rfl

/-! ## The rule of types at a group -/

/-- What a type matches in brackets reaches to the first of them that closes. -/
theorem eq_of_type_closes {before blanks rest text k : List Char} (hbefore : '[' ∉ before)
    (hblanks : ∀ c ∈ blanks, isBlank c = true) (htext : ']' ∉ text) (hk : ']' ∉ k.takeWhile (· != '['))
    (h : before ++ ("-agent".toList ++ (blanks ++ ']' :: rest)) = text ++ ']' :: k) :
    before ++ ("-agent".toList ++ blanks) = text := by
  have hopen : '[' ∉ before ++ ("-agent".toList ++ blanks) := by
    simp only [List.mem_append, not_or]
    exact ⟨hbefore, by decide, fun hm => absurd (hblanks _ hm) (by decide)⟩
  have heq : (before ++ ("-agent".toList ++ blanks)) ++ ']' :: rest = text ++ ']' :: k := by
    rw [← h, List.append_assoc, List.append_assoc]
  exact (closing_bracket_unique hopen htext hk heq).1

/-- Behind its first letter a type does not match again. -/
theorem lastAgentType?_type {k : List Char} (hk : ']' ∉ k.takeWhile (· != '[')) :
    lastAgentType? ("agent".toList ++ ']' :: k) = none := by
  rw [Option.eq_none_iff_forall_ne_some]
  rintro ⟨before, rest⟩ hsome
  obtain ⟨tail, hcs, hbefore, hend⟩ := lastAgentType?_some hsome
  obtain ⟨blanks, hblanks, rfl⟩ := agentTypeEnd?_some hend
  -- the match would have a letter more than there are
  have hlength := congrArg List.length (eq_of_type_closes hbefore hblanks (by decide) hk hcs.symm)
  simp only [List.length_append] at hlength
  have htype : "-agent".toList.length = 6 ∧ "agent".toList.length = 5 := by decide
  omega

theorem lastAgentType?_append {k : List Char} (hk : ']' ∉ k.takeWhile (· != '[')) :
    ∀ {before : List Char}, '[' ∉ before → lastAgentType? (before ++ ("-agent".toList ++ ']' :: k)) = some (before, k)
  | [], _ => by
    have hend : agentTypeEnd? ("-agent".toList ++ ']' :: k) = some k := rfl
    have hcons : "-agent".toList ++ ']' :: k = '-' :: ("agent".toList ++ ']' :: k) := rfl
    rw [List.nil_append, hcons, lastAgentType?, lastAgentType?_type hk, ← hcons, hend]
    rfl
  | c :: before, h => by
    rw [List.mem_cons, not_or] at h
    rw [List.cons_append, lastAgentType?, lastAgentType?_append hk h.2, if_neg (by rw [beq_iff_eq]; exact Ne.symm h.1)]

theorem agentText_getLast {ws : List String} (hne : ws ≠ []) (h : ∀ w ∈ ws, IsPlainWord w) :
    ∃ b c, agentText ws = b ++ [c] ∧ isBlank c = false := by
  obtain ⟨a, ha, before, htext, -⟩ := agentText_last hne
  rcases List.eq_nil_or_concat a.toList with hnil | ⟨b, c, hlast⟩
  · exact absurd hnil (h a ha).1
  · rw [List.concat_eq_append] at hlast
    refine ⟨before ++ b, c, by rw [htext, hlast, List.append_assoc], ?_⟩
    exact (isWordChar_iff.1 ((h a ha).2 c (by rw [hlast]; simp))).1

theorem agentType_typed {text x k : List Char} (hx : x ≠ []) (htext : text = x ++ "-agent".toList) (hopen : '[' ∉ text)
    (hk : ']' ∉ k.takeWhile (· != '[')) : agentType ('[' :: (text ++ ']' :: k)) = some ('[' :: (x ++ [']']), k) := by
  obtain ⟨c, x, rfl⟩ := List.exists_cons_of_ne_nil hx
  have hbefore : '[' ∉ c :: x := fun hm => hopen (htext ▸ List.mem_append_left _ hm)
  rw [htext, agentType, List.append_assoc, lastAgentType?_append hk hbefore]
  rfl

theorem agentType_untyped {ws : List String} (hne : ws ≠ []) (h : ∀ w ∈ ws, IsPlainWord w)
    (htyped : ∀ x, x ≠ [] → agentText ws ≠ x ++ "-agent".toList) {k : List Char} (hk : ']' ∉ k.takeWhile (· != '[')) :
    agentType ('[' :: (agentText ws ++ ']' :: k)) = none := by
  rw [Option.eq_none_iff_forall_ne_some]
  rintro ⟨new, rest⟩ hsome
  obtain ⟨before, blanks, hne', hbefore, hblanks, hcs, -⟩ := agentType_some hsome
  have htext := eq_of_type_closes hbefore hblanks (agentText_not_mem h (by decide) (by decide)) hk
    (List.cons.inj hcs).2.symm
  obtain ⟨b, c, hlast, hblank⟩ := agentText_getLast hne h
  rcases List.eq_nil_or_concat blanks with rfl | ⟨bs, d, rfl⟩
  · exact htyped before hne' (by rw [← htext, List.append_nil])
  · -- the last letter of a group is not a blank
    rw [hlast, List.concat_eq_append, ← List.append_assoc, ← List.append_assoc] at htext
    obtain rfl : d = c := by simpa using (List.append_inj' htext rfl).2
    rw [hblanks d (by simp)] at hblank
    cases hblank

/-- **A pass takes the type out of a group**, and goes on behind the bracket. -/
theorem passes_agentType {ws : List String} (hne : ws ≠ []) (h : ∀ w ∈ ws, IsPlainWord w) {k after : List Char}
    {n : Nat} (hk : ']' ∉ k.takeWhile (· != '[')) (hpasses : Passes agentType k after n) :
    ∃ m, Passes agentType ('[' :: (agentText ws ++ ']' :: k)) ('[' :: (bareText ws ++ ']' :: after)) m := by
  have hopen : '[' ∉ agentText ws := agentText_not_mem h (by decide) (by decide)
  rcases bareText_cases hne with ⟨x, hx, htext, rfl⟩ | ⟨hbare, htyped⟩
  · refine ⟨n + 1, ?_⟩
    have hreplaced := Passes.replace (agentType_typed hx htext hopen hk) hpasses
    rwa [List.cons_append, List.append_assoc, List.singleton_append] at hreplaced
  · refine ⟨n, ?_⟩
    rw [hbare]
    have hkept : '[' ∉ agentText ws ++ [']'] := by
      rw [List.mem_append, not_or]
      exact ⟨hopen, by decide⟩
    have hbehind := Passes.keep_append agentType_of_ne hpasses hkept
    rw [List.append_assoc, List.append_assoc] at hbehind
    exact .keep (agentType_untyped hne h htyped hk) hbehind

/-! ## Groups before a formula -/

/-- A formula with groups in brackets before it, each in a list with all that stands behind it. -/
def around (core : List Char) : List (List Char) → List Char
  | [] => core
  | g :: gs => '(' :: '[' :: (g ++ ']' :: (around core gs ++ [')']))

/-- The tree of a formula with operators before it. -/
def believed (t : Tree) : List (List String) → Tree
  | [] => t
  | agents :: groups => .list [.word (operatorName agents), believed t groups]

def denial (atom : List String) : List Char := '(' :: ("not".toList ++ ' ' :: '(' :: (agentText atom ++ [')', ')']))

def denialTree (atom : List String) : Tree := .list [.word "not", .list (atom.map .word)]

theorem around_cons (core g : List Char) (gs : List (List Char)) (k : List Char) :
    around core (g :: gs) ++ k = '(' :: '[' :: (g ++ ']' :: (around core gs ++ ')' :: k)) := by
  simp [around]

theorem laidOut_agentText {ws : List String} (h : ∀ w ∈ ws, IsPlainWord w) : LaidOut (agentText ws) (ws.map .word) := by
  induction ws with
  | nil => exact .nil
  | cons v ws ih =>
    obtain ⟨hv, hws⟩ := List.forall_mem_cons.1 h
    cases ws with
    | nil =>
      have hword : LaidOut (v.toList ++ []) [.word v] := .word hv (by simp [Delimited]) .nil
      simpa [agentText] using hword
    | cons w ws =>
      rw [agentText_cons_cons]
      exact .word hv (delimited_cons (by decide) _) (.blank (by decide) (ih hws))

theorem laidOut_denial {atom : List String} (h : ∀ w ∈ atom, IsPlainWord w) :
    LaidOut (denial atom) [denialTree atom] := by
  have hatom : LaidOut ('(' :: (agentText atom ++ ')' :: [])) [.list (atom.map .word)] :=
    .list (by cases atom <;> simp [Tree.isList]) (laidOut_agentText h) .nil
  have hnot : LaidOut ("not".toList ++ ' ' :: '(' :: (agentText atom ++ ')' :: []))
      (.word "not" :: [.list (atom.map .word)]) :=
    .word (by decide +kernel) (delimited_cons (by decide) _) (.blank (by decide) hatom)
  have hlist := LaidOut.list (by simp [Tree.isList]) hnot .nil
  rwa [List.append_assoc, List.cons_append, List.cons_append, List.append_assoc] at hlist

/-- A formula that is written without brackets and begins with a list, of which no parenthesis closes before another
opens. -/
structure IsCore (core : List Char) (t : Tree) : Prop where
  laidOut : LaidOut core [t]
  opens : ∃ rest, core = '(' :: rest ∧ ∀ k, ')' ∉ (rest ++ k).takeWhile (· != '(')

theorem isCore_denial {atom : List String} (h : ∀ w ∈ atom, IsPlainWord w) : IsCore (denial atom) (denialTree atom) :=
  ⟨laidOut_denial h, _, rfl, fun k => by
    rw [List.append_assoc, List.cons_append, takeWhile_append_cons (by decide) (by decide)]
    exact (by decide : ')' ∉ "not".toList ++ [' '])⟩

variable {core : List Char} {t : Tree} {groups : List (List String)}

theorem brackets_around (hcore : '[' ∉ core ∧ ']' ∉ core) (gs : List (List Char)) {k : List Char}
    (hk : ']' ∉ k.takeWhile (· != '[')) : ']' ∉ (around core gs ++ k).takeWhile (· != '[') := by
  cases gs with
  | nil => exact brackets_append hcore.1 hcore.2 hk
  | cons g gs =>
    rw [around_cons]
    simp

/-- Behind the bracket of a group a parenthesis opens, and none closes before the next that opens. -/
theorem opens_around (hcore : IsCore core t) {gs : List (List Char)} (hgs : ∀ g ∈ gs, '(' ∉ g ∧ ')' ∉ g)
    (k : List Char) : ∃ rest, around core gs ++ k = '(' :: rest ∧ ')' ∉ rest.takeWhile (· != '(') := by
  induction gs generalizing k with
  | nil =>
    obtain ⟨rest, hopens, hclosed⟩ := hcore.opens
    exact ⟨rest ++ k, by rw [around, hopens, List.cons_append], hclosed k⟩
  | cons g gs ih =>
    obtain ⟨⟨hopen, hclose⟩, hgs⟩ := List.forall_mem_cons.1 hgs
    obtain ⟨rest, hrest, -⟩ := ih hgs (')' :: k)
    refine ⟨'[' :: (g ++ ']' :: '(' :: rest), by rw [around_cons, hrest], ?_⟩
    have hbracket : '(' ∉ '[' :: g := by simpa using hopen
    have hreach := takeWhile_append_cons hbracket (by decide : ']' ≠ '(') ('(' :: rest)
    rw [List.cons_append] at hreach
    rw [hreach]
    simpa using hclose

/-- No mark of the text stands in the brackets of a group. -/
theorem bareText_marks {ws : List String} (h : ∀ w ∈ ws, IsPlainWord w) :
    ('(' ∉ bareText ws ∧ ')' ∉ bareText ws) ∧ '[' ∉ bareText ws ∧ ']' ∉ bareText ws :=
  ⟨⟨bareText_not_mem h (by decide) (by decide), bareText_not_mem h (by decide) (by decide)⟩,
    bareText_not_mem h (by decide) (by decide), bareText_not_mem h (by decide) (by decide)⟩

/-- Groups of agents: each names some, in plain words. -/
def AreGroups (groups : List (List String)) : Prop := ∀ g ∈ groups, g ≠ [] ∧ ∀ w ∈ g, IsPlainWord w

instance (groups : List (List String)) : Decidable (AreGroups groups) :=
  inferInstanceAs (Decidable (∀ g ∈ groups, g ≠ [] ∧ ∀ w ∈ g, IsPlainWord w))

theorem IsCore.no_brackets (hcore : IsCore core t) : '[' ∉ core ∧ ']' ∉ core := by
  refine ⟨hcore.laidOut.no_bracket, fun hm => ?_⟩
  rcases hcore.laidOut.chars _ hm with hw | hs | hp
  · exact absurd hw (by decide)
  · exact absurd hs (by decide)
  · exact absurd hp (by decide)

/-- **A pass takes the types out of all groups.** -/
theorem passes_around (hcore : IsCore core t) (hgroups : AreGroups groups) {k : List Char} {n : Nat}
    (hk : ']' ∉ k.takeWhile (· != '[')) (hpasses : Passes agentType k k n) :
    ∃ m, Passes agentType (around core (groups.map agentText) ++ k) (around core (groups.map bareText) ++ k) m := by
  induction groups generalizing k n with
  | nil => exact ⟨n, Passes.keep_append agentType_of_ne hpasses hcore.no_brackets.1⟩
  | cons g groups ih =>
    obtain ⟨⟨hne, hwords⟩, hgroups⟩ := List.forall_mem_cons.1 hgroups
    -- the parenthesis that closes the list stands behind all inner groups
    have hclose : ']' ∉ (')' :: k).takeWhile (· != '[') := by simpa using hk
    obtain ⟨m, hinner⟩ := ih hgroups hclose (.keep (agentType_of_ne _ _ (by decide)) hpasses)
    obtain ⟨m, hgroup⟩ := passes_agentType hne hwords (brackets_around hcore.no_brackets _ hclose) hinner
    refine ⟨m, ?_⟩
    rw [List.map_cons, List.map_cons, around_cons, around_cons]
    exact .keep (agentType_of_ne _ _ (by decide)) hgroup

theorem still_double_around (hcore : IsCore core t) (hgroups : AreGroups groups) {k : List Char}
    (hk : Still doubleParentheses k) : Still doubleParentheses (around core (groups.map bareText) ++ k) := by
  induction groups generalizing k with
  | nil => exact hcore.laidOut.still_double hk
  | cons g groups ih =>
    obtain ⟨⟨-, hwords⟩, hgroups⟩ := List.forall_mem_cons.1 hgroups
    rw [List.map_cons, around_cons]
    refine ⟨LaidOut.doubleParentheses_open ⟨'[', _, rfl, by decide⟩, ?_⟩
    have hinner := ih hgroups (k := ')' :: k) ⟨doubleParentheses_of_ne _ _ (by decide), hk⟩
    have hbracket : '(' ∉ '[' :: (bareText g ++ [']']) := by simpa using (bareText_marks hwords).1.1
    have hstill := still_append doubleParentheses_of_ne hinner hbracket
    rwa [List.cons_append, List.append_assoc] at hstill

/-- **No parentheses are taken away behind a group**: another opens before one closes. -/
theorem still_operator_around (hcore : IsCore core t) (hgroups : AreGroups groups) {k : List Char}
    (hbrackets : ']' ∉ k.takeWhile (· != '[')) (hk : Still operatorParentheses k) :
    Still operatorParentheses (around core (groups.map bareText) ++ k) := by
  induction groups generalizing k with
  | nil => exact still_append operatorParentheses_of_ne hk hcore.no_brackets.1
  | cons g groups ih =>
    obtain ⟨⟨-, hwords⟩, hgroups⟩ := List.forall_mem_cons.1 hgroups
    have hclose : ']' ∉ (')' :: k).takeWhile (· != '[') := by simpa using hbrackets
    have hinner := ih hgroups hclose ⟨operatorParentheses_of_ne _ _ (by decide), hk⟩
    have hmarks := bareText_marks hwords
    rw [List.map_cons, around_cons]
    refine ⟨operatorParentheses_of_ne _ _ (by decide), ?_, ?_⟩
    · -- a match would close a parenthesis right behind the group before another opens
      rw [Option.eq_none_iff_forall_ne_some]
      intro m hsome
      obtain ⟨rest, htail, hmem⟩ :=
        operatorParentheses_closed hmarks.2.2 (brackets_around hcore.no_brackets _ hclose) hsome
      have hbare : ∀ x ∈ groups.map bareText, '(' ∉ x ∧ ')' ∉ x := by
        intro x hx
        obtain ⟨ws, hws, rfl⟩ := List.mem_map.1 hx
        exact (bareText_marks (hgroups ws hws).2).1
      obtain ⟨rest', htail', hnone⟩ := opens_around hcore hbare (')' :: k)
      rw [htail', List.cons.injEq] at htail
      exact hnone (htail.2 ▸ hmem)
    · have hbracket : '[' ∉ bareText g ++ [']'] := by simpa using hmarks.2.1
      have hstill := still_append operatorParentheses_of_ne hinner hbracket
      rwa [List.append_assoc] at hstill

open Nest in
/-- **The tokens of a formula with groups before it add its tree to the current list.** -/
theorem run_around (hcore : IsCore core t) (hgroups : AreGroups groups) {k : List Char} (hk : Delimited k) {n : Nest}
    (hn : n.Outside) : ∃ m, run (tokens (around core (groups.map bareText) ++ k)) n = run (tokens k) m ∧
      n.Grown m [believed t (groups.map agentsOf)] := by
  induction groups generalizing k n with
  | nil => exact hcore.laidOut.run_tokens hk hn
  | cons g groups ih =>
    obtain ⟨⟨-, hwords⟩, hgroups⟩ := List.forall_mem_cons.1 hgroups
    have htokens : tokens (around core ((g :: groups).map bareText) ++ k) = .openList :: .openAgents ::
        ((agentsOf g).map .word ++ .closeAgents :: tokens (around core (groups.map bareText) ++ ')' :: k)) := by
      rw [← tokens_bareText hwords, List.map_cons, around_cons]
      simp [tokens, tokensFrom, mark?, finishedWord]
    have hnames : ∀ a ∈ agentsOf g, '(' ∉ a.toList := fun a ha =>
      (isPlainWord_of_mem_agentsOf hwords a ha).not_mem (by decide)
    -- the operator and what stands behind it are run with the list open
    obtain ⟨m₁, hrun₁, hgrown₁⟩ := run_operator (agentsOf g) hnames
      (tokens (around core (groups.map bareText) ++ ')' :: k)) { n with outer := n.items :: n.outer, items := [] } hn
    obtain ⟨m₂, hrun₂, hgrown₂⟩ := ih hgroups
      (delimited_cons (by decide : (isBlank ')' || (mark? ')').isSome) = true) k) hgrown₁.outside
    have hgrown := hgrown₁.trans hgrown₂
    have hclose : m₂.step .closeList = .ok { m₂ with
        outer := n.outer
        items := believed t ((g :: groups).map agentsOf) :: n.items } := by
      rw [step, hgrown.outer, hgrown.items]
      simp [believed]
    refine ⟨{ m₂ with outer := n.outer, items := believed t ((g :: groups).map agentsOf) :: n.items }, ?_,
      hgrown.outside, rfl, rfl⟩
    rw [htokens, run_cons rfl, hrun₁, hrun₂]
    exact run_cons hclose (tokens k)

theorem around_chars (hcore : IsCore core t) (hgroups : AreGroups groups) :
    ∀ c ∈ around core (groups.map agentText), c ≠ '\r' ∧ c ≠ ';' ∧ Text.lower [c] = [c] := by
  induction groups with
  | nil => exact hcore.laidOut.plain_chars
  | cons g groups ih =>
    obtain ⟨⟨-, hwords⟩, hgroups⟩ := List.forall_mem_cons.1 hgroups
    intro c hc
    rw [List.map_cons, around, List.mem_cons, List.mem_cons, List.mem_append, List.mem_cons, List.mem_append,
      List.mem_singleton] at hc
    rcases hc with rfl | rfl | hc | rfl | hc | rfl
    · decide
    · decide
    · exact (laidOut_agentText hwords).plain_chars c hc
    · decide
    · exact ih hgroups c hc
    · decide

/-- **A formula with groups before it is read as it stands**, with an operator for each group. -/
theorem scan_around (hcore : IsCore core t) (hgroups : AreGroups groups) :
    scan .levels (String.ofList (around core (groups.map agentText))) = .ok (believed t (groups.map agentsOf)) := by
  obtain ⟨m, hpasses⟩ := passes_around hcore hgroups (k := []) (by simp) .nil
  have hdouble := still_double_around hcore hgroups (k := []) trivial
  have hoperator := still_operator_around hcore hgroups (k := []) (by simp) trivial
  obtain ⟨n, hrun, hgrown⟩ := run_around hcore hgroups (k := []) (by simp [Delimited]) (n := {}) ⟨rfl, rfl⟩
  rw [List.append_nil] at hrun hdouble hoperator
  rw [List.append_nil, List.append_nil] at hpasses
  have htypes := ((passes_pass agentType_consumes _).unique hpasses).1
  have hnormal : normalize .levels (around core (groups.map agentText)) = around core (groups.map bareText) := by
    unfold normalize
    simp only
    rw [htypes, exhaust_eq_self doubleParentheses_consumes (by rw [hdouble.pass_eq doubleParentheses_consumes]),
      exhaust_eq_self operatorParentheses_consumes (by rw [hoperator.pass_eq operatorParentheses_consumes])]
  rw [scan, String.toList_ofList, plain_eq_self (around_chars hcore hgroups), hnormal, nest, hrun]
  simp only [tokens, tokensFrom, finishedWord, List.isEmpty_nil, if_true, Nest.run, Nest.finish, hgrown.outer,
    hgrown.items]
  rfl

end Source

open Source (IsPlainWord operatorName agentsOf believed denialTree)

/-! ## Filing -/

/-- A formula is filed as one to hold, in whatever form: among the literals of a conjunction, as the precondition of an
action, in the initial state and among the goals. -/
structure FiledToHold (t filed : Tree) : Prop where
  literal : ∀ place (ls : Literals), ls.add place t = .ok { ls with positive := ls.positive ++ [filed] }
  precondition : ∀ a : Action, a.readPrecondition t = .ok { a with
    positivePreconditions := a.positivePreconditions ++ [filed] }
  initial : ∀ task problem, Problem.readSection task problem (.list [.word ":init", t]) =
    { task, problem := { problem with state := [filed] } }
  goal : ∀ task problem, Problem.readSection task problem (.list [.word ":goal", t]) =
    { task, problem := { problem with positiveGoals := [filed], negativeGoals := [] } }

theorem filedToHold {op w : String} {rest more : List Tree} (hop : '(' ∈ op.toList) (hw : '(' ∈ w.toList)
    (h : Literals.normalForm (.list (.word op :: rest)) = .ok (.list (.word w :: more))) :
    FiledToHold (.list (.word op :: rest)) (.list (.word w :: more)) := by
  have hne : ∀ {u : String}, '(' ∈ u.toList → ∀ k : String, '(' ∉ k.toList → (Tree.word u).isWord k = false := by
    intro u hu k hk
    simp only [Tree.isWord, beq_eq_false_iff_ne, ne_eq, Tree.word.injEq]
    rintro rfl
    exact hk hu
  have hadd : ∀ place (ls : Literals), ls.add place (.list (.word op :: rest)) =
      .ok { ls with positive := ls.positive ++ [.list (.word w :: more)] } := by
    intro place ls
    simp [Literals.add, h, Tree.items, hne hw "not" (by decide)]
  have hall : ∀ place (ls : Literals), Literals.addAll place [.list (.word op :: rest)] ls =
      ({ ls with positive := ls.positive ++ [.list (.word w :: more)] }, none) := by
    intro place ls
    simp [Literals.addAll, hadd]
  refine ⟨hadd, fun a => ?_, fun task problem => ?_, fun task problem => ?_⟩
  · simp [Action.readPrecondition, Literals.split, hne hop "and" (by decide), hall]
  · simp [Problem.readSection, Problem.readBehind, Problem.readLiterals, Literals.split, Tree.isWord, hall]
  · simp [Problem.readSection, Problem.readBehind, Problem.readLiterals, Literals.split, Tree.isWord, hall]

/-! ## Printing -/

namespace MAp

def operatorTexts (groups : List (List String)) : String := String.join (groups.map operatorText)

/-- **Operators around a negated atom**: the negation stays where it is written. -/
theorem isFormula_believed {name : String} {args : List String} (hatom : ∀ w ∈ name :: args, IsPlainWord w) :
    ∀ {agents : List String} {groups : List (List String)}, (∀ g ∈ agents :: groups, ∀ a ∈ g, IsPlainWord a) →
    IsFormula [.word (operatorName agents), believed (denialTree (name :: args)) groups]
      (operatorTexts (agents :: groups) ++ ("not_" ++ (Tree.list ((name :: args).map .word)).shown) ++
        closings (groups.length + 1)) := by
  intro agents groups
  induction groups generalizing agents with
  | nil =>
    intro hgroups
    have hdenied := IsFormula.denied (hgroups agents List.mem_cons_self) hatom
    simpa [operatorTexts, closings_succ, closings, believed, denialTree, String.append_assoc] using hdenied
  | cons bs groups ih =>
    intro hgroups
    obtain ⟨has, hgroups⟩ := List.forall_mem_cons.1 hgroups
    have henclosed := IsFormula.enclosed has (ih hgroups)
    rw [List.length_cons, closings_add (groups.length + 1) 1]
    simpa [operatorTexts, closings, believed, String.append_assoc] using henclosed

/-- A belief with its operators around an atom, and a parenthesis that closes each of them. -/
def beliefText (groups : List (List String)) (atom : String) : String :=
  operatorTexts groups ++ atom ++ closings groups.length

end MAp

open MAp (beliefText)

/-- The belief of groups in the negation of an atom, as it is written. -/
def negatedBelief (groups : List (List String)) (atom : List String) : String :=
  String.ofList (Source.around (Source.denial atom) (groups.map Source.agentText))

/-- A negation right behind the only operator is drawn into the atom. -/
theorem filed_single {agents : List String} (hagents : ∀ a ∈ agents, IsPlainWord a) {name : String} {args : List String}
    (hatom : ∀ w ∈ name :: args, IsPlainWord w) :
    ∃ filed, FiledToHold (believed (denialTree (name :: args)) [agents]) filed ∧
      MAp.formula filed = .ok (beliefText [agents] ("-" ++ String.intercalate "_" (name :: args))) := by
  have hop := MAp.parenthesis_mem_operatorName agents
  refine ⟨_, filedToHold hop hop ?_, (MAp.formula_drawn hagents hatom).trans ?_⟩
  · simp [Literals.normalForm, Tree.items, MAp.isOperator_operatorName hagents, denialTree, believed, Literals.drawIn,
      Tree.isWord]
  · simp [beliefText, MAp.operatorTexts, closings]

/-- A negation behind two operators or more is left where it is. -/
theorem filed_nested {as bs : List String} {groups : List (List String)}
    (hgroups : ∀ g ∈ as :: bs :: groups, ∀ a ∈ g, IsPlainWord a) {name : String} {args : List String}
    (hatom : ∀ w ∈ name :: args, IsPlainWord w) :
    ∃ filed, FiledToHold (believed (denialTree (name :: args)) (as :: bs :: groups)) filed ∧
      MAp.formula filed = .ok (beliefText (as :: bs :: groups)
        ("not_" ++ (Tree.list ((name :: args).map .word)).shown)) := by
  have hop := MAp.parenthesis_mem_operatorName as
  have hnot : (Tree.word (operatorName bs)).isWord "not" = false := by
    have hkeyword := MAp.keyword?_of_parenthesis (MAp.parenthesis_mem_operatorName bs)
    simpa [Tree.isWord] using (Keyword.of?_eq_none hkeyword).2
  refine ⟨_, filedToHold hop hop ?_, (MAp.isFormula_believed hatom hgroups).formula_eq⟩
  simp [Literals.normalForm, Tree.items, MAp.isOperator_operatorName (hgroups as List.mem_cons_self), believed,
    Literals.drawIn, hnot]

/-- **The belief in a negated atom is printed with a negated atom exactly if it has one operator.**  It is written with
any number of groups in brackets, of one agent or more, and with a type behind the agents of a group or not.  It is
read, it is filed as a formula to hold, and it can be printed: with the negation as a hyphen before the atom if there is
one group, and as a shown list behind two operators or more. -/
theorem negatedBelief_rendered_iff {groups : List (List String)} (hne : groups ≠ []) (hgroups : Source.AreGroups groups)
    {name : String} {args : List String} (hatom : ∀ w ∈ name :: args, IsPlainWord w) :
    ∃ tree filed text, Source.scan .levels (negatedBelief groups (name :: args)) = .ok tree ∧ FiledToHold tree filed ∧
      MAp.formula filed = .ok text ∧
      text = beliefText (groups.map agentsOf) (if groups.length = 1 then "-" ++ String.intercalate "_" (name :: args)
        else "not_" ++ (Tree.list ((name :: args).map .word)).shown) ∧
      (text = beliefText (groups.map agentsOf) ("-" ++ String.intercalate "_" (name :: args)) ↔ groups.length = 1) := by
  have hscan := Source.scan_around (Source.isCore_denial hatom) hgroups
  have hagents : ∀ g ∈ groups.map agentsOf, ∀ a ∈ g, IsPlainWord a := by
    intro g hg
    obtain ⟨ws, hws, rfl⟩ := List.mem_map.1 hg
    exact Source.isPlainWord_of_mem_agentsOf (hgroups ws hws).2
  rcases groups with _ | ⟨g, _ | ⟨h, groups⟩⟩
  · exact absurd rfl hne
  · obtain ⟨filed, hfiled, hformula⟩ := filed_single (hagents _ List.mem_cons_self) hatom
    exact ⟨_, filed, _, hscan, hfiled, hformula, rfl, iff_of_true rfl rfl⟩
  · obtain ⟨filed, hfiled, hformula⟩ := filed_nested hagents hatom
    refine ⟨_, filed, _, hscan, hfiled, hformula, by simp, iff_of_false (fun heq => ?_) (by simp)⟩
    -- behind the operators the one text goes on with `not`, and the other with a hyphen
    simp only [beliefText, List.map_cons, String.append_assoc, String.append_right_inj] at heq
    have hlist := congrArg String.toList heq
    simp at hlist

theorem negatedBelief_rendered_iff_doubt :
    Source.AreGroups [["a"], ["b", "c", "-agent"]] ∧ (∀ w ∈ ["ajar", "door"], IsPlainWord w) ∧
    negatedBelief [["a"], ["b", "c", "-agent"]] ["ajar", "door"] = "([a]([b c -agent](not (ajar door))))" ∧
    ∃ tree filed text, Source.scan .levels (negatedBelief [["a"], ["b", "c", "-agent"]] ["ajar", "door"]) = .ok tree ∧
      FiledToHold tree filed ∧ MAp.formula filed = .ok text ∧
      text = beliefText [["a"], ["b", "c"]] ("not_" ++ (Tree.list [.word "ajar", .word "door"]).shown) ∧
      (text = beliefText [["a"], ["b", "c"]] "-ajar_door" ↔ 2 = 1) := by
  have hgroups : Source.AreGroups [["a"], ["b", "c", "-agent"]] := by decide +kernel
  have hatom : ∀ w ∈ ["ajar", "door"], IsPlainWord w := by decide +kernel
  exact ⟨hgroups, hatom, by decide +kernel, negatedBelief_rendered_iff (by simp) hgroups hatom⟩

end Epistemic
