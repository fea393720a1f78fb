import Epistemic.Proofs.Places
import Epistemic.Proofs.Replacement
import Epistemic.Source.Rules
/-!
# What the rules of writing match

For each rule of writing, the shape of the text it matches and of what it writes instead.  Every rule hands back an end
of its text, and the two that take parentheses away take as many that open as that close, and always as many.
-/
namespace Epistemic.Source

open Text (isBlank splitLast?)

/-! ## Splitting at the last place -/

theorem splitLast?_none {x : Char} {cs : List Char} (h : splitLast? [x] cs = none) : x ∉ cs := by
  intro hx
  obtain ⟨before, after, rfl⟩ := List.append_of_mem hx
  exact Text.splitLast?_eq_none h ⟨before, after, by simp⟩

/-- **The last place of a character** splits a text into what stands before it and an end without it. -/
theorem splitLast?_some {x : Char} {cs before after : List Char} (h : splitLast? [x] cs = some (before, after)) :
    cs = before ++ x :: after ∧ x ∉ after := by
  obtain ⟨hcs, hlast⟩ := Text.splitLast?_eq_some h
  refine ⟨by rw [hcs]; simp, fun hx => ?_⟩
  obtain ⟨s, t, rfl⟩ := List.append_of_mem hx
  have hle := hlast (before ++ x :: s) t (by rw [hcs]; simp)
  rw [List.length_append, List.length_cons] at hle
  omega

/-! ## Parentheses around parentheses -/

theorem takeWhile_all {p : Char → Bool} : ∀ (cs : List Char), ∀ c ∈ cs.takeWhile p, p c = true
  | [], _, h => by cases h
  | d :: cs, c, h => by
    rw [List.takeWhile_cons] at h
    split at h
    · rename_i hd
      rcases List.mem_cons.1 h with rfl | h
      · exact hd
      · exact takeWhile_all cs c h
    · cases h

theorem eq_append_of_dropWhile {p : Char → Bool} {cs rest : List Char} {c : Char} (h : cs.dropWhile p = c :: rest) :
    cs = cs.takeWhile p ++ c :: rest := by
  conv => lhs; rw [← List.takeWhile_append_dropWhile (p := p) (l := cs), h]

/-- **What `doubleParentheses` matches**: two pairs of parentheses around a text without any, with nothing but blanks
between them. -/
theorem doubleParentheses_some {cs new rest : List Char} (h : doubleParentheses cs = some (new, rest)) :
    ∃ b₁ b₂, (∀ c ∈ b₁, isBlank c = true) ∧ (∀ c ∈ b₂, isBlank c = true) ∧ (∀ c ∈ new, isParenthesis c = false) ∧
      new ≠ [] ∧ cs = '(' :: (b₁ ++ '(' :: (new ++ ')' :: (b₂ ++ ')' :: rest))) := by
  unfold doubleParentheses at h
  split at h
  · rename_i cs₁
    split at h
    · rename_i cs₂ h₂
      simp only at h
      split at h
      · rename_i cs₃ h₃
        split at h
        · rename_i rest' h₄
          split at h
          · cases h
          · rename_i hne
            simp only [Option.some.injEq, Prod.mk.injEq] at h
            obtain ⟨rfl, rfl⟩ := h
            refine ⟨cs₁.takeWhile isBlank, cs₃.takeWhile isBlank, takeWhile_all cs₁, takeWhile_all cs₃, ?_, ?_, ?_⟩
            · intro c hc
              simpa using takeWhile_all cs₂ c hc
            · simpa using hne
            · rw [← eq_append_of_dropWhile h₄, ← eq_append_of_dropWhile h₃, ← eq_append_of_dropWhile h₂]
        · cases h
      · cases h
    · cases h
  · cases h

/-- **`doubleParentheses` matches all of that shape.** -/
theorem doubleParentheses_append {b₁ b₂ inner : List Char} (hb₁ : ∀ c ∈ b₁, isBlank c = true)
    (hb₂ : ∀ c ∈ b₂, isBlank c = true) (hinner : ∀ c ∈ inner, isParenthesis c = false) (hne : inner ≠ [])
    (rest : List Char) :
    doubleParentheses ('(' :: (b₁ ++ '(' :: (inner ++ ')' :: (b₂ ++ ')' :: rest)))) = some (inner, rest) := by
  have hletters : ∀ c ∈ inner, (!isParenthesis c) = true := fun c hc => by rw [hinner c hc]; rfl
  have hopen : (b₁ ++ '(' :: (inner ++ ')' :: (b₂ ++ ')' :: rest))).dropWhile isBlank =
      '(' :: (inner ++ ')' :: (b₂ ++ ')' :: rest)) := by
    rw [List.dropWhile_append_of_pos hb₁]
    rfl
  have htake : (inner ++ ')' :: (b₂ ++ ')' :: rest)).takeWhile (!isParenthesis ·) = inner := by
    rw [List.takeWhile_append_of_pos hletters, List.takeWhile_cons_of_neg (by decide), List.append_nil]
  have hdrop : (inner ++ ')' :: (b₂ ++ ')' :: rest)).dropWhile (!isParenthesis ·) = ')' :: (b₂ ++ ')' :: rest) := by
    rw [List.dropWhile_append_of_pos hletters]
    rfl
  have hclose : (b₂ ++ ')' :: rest).dropWhile isBlank = ')' :: rest := by
    rw [List.dropWhile_append_of_pos hb₂]
    rfl
  simp only [doubleParentheses, hopen, hdrop, hclose, htake, if_neg (mt List.isEmpty_iff.1 hne)]

/-! ## Parentheses behind an operator -/

/-- **What `closed?` finds**: the last closing parenthesis before the next opening one, if a character stands before
it. -/
theorem closed?_some {cs inner rest : List Char} (h : closed? cs = some (inner, rest)) :
    cs = inner ++ ')' :: rest ∧ inner ≠ [] ∧ '(' ∉ inner ∧ ')' ∉ rest.takeWhile (· != '(') := by
  unfold closed? at h
  simp only at h
  split at h
  · rename_i c inner' after hs
    simp only [Option.some.injEq, Prod.mk.injEq] at h
    obtain ⟨rfl, rfl⟩ := h
    obtain ⟨hreach, hafter⟩ := splitLast?_some hs
    have hno : ∀ x ∈ cs.takeWhile (· != '('), (x != '(') = true := takeWhile_all cs
    have hcut : (after ++ cs.dropWhile (· != '(')).takeWhile (· != '(') = after := by
      rw [List.takeWhile_append_of_pos (fun x hx => hno x (by rw [hreach]; simp [hx]))]
      cases hd : cs.dropWhile (· != '(') with
      | nil => simp
      | cons d ds =>
        have hp := List.head?_dropWhile_not (fun x => x != '(') cs
        rw [hd] at hp
        simp only [List.head?_cons] at hp
        rw [List.takeWhile_cons, hp]
        simp
    refine ⟨?_, by simp, fun hm => ?_, by rw [hcut]; exact hafter⟩
    · conv => lhs; rw [← List.takeWhile_append_dropWhile (p := (· != '(')) (l := cs), hreach]
      simp only [List.append_assoc, List.cons_append]
    · have := hno '(' (by rw [hreach]; exact List.mem_append_left _ hm)
      simp at this
  · cases h

/-- **What `lastOperator?` finds**: a closing bracket with no opening one before it, and parentheses that can be taken
away right behind it. -/
theorem lastOperator?_some : ∀ {cs before inner rest : List Char}, lastOperator? cs = some (before, inner, rest) →
    ∃ tail, cs = before ++ ']' :: '(' :: tail ∧ '[' ∉ before ∧ closed? tail = some (inner, rest)
  | [], _, _, _, h => by cases h
  | c :: cs, before, inner, rest, h => by
    unfold lastOperator? at h
    split at h
    · cases h
    · rename_i hc
      split at h
      · rename_i b i r hrest
        obtain ⟨tail, hcs, hb, hclosed⟩ := lastOperator?_some hrest
        simp only [Option.some.injEq, Prod.mk.injEq] at h
        obtain ⟨rfl, rfl, rfl⟩ := h
        refine ⟨tail, by rw [hcs, List.cons_append], ?_, hclosed⟩
        rw [List.mem_cons, not_or]
        exact ⟨fun he => hc (by rw [← he]; rfl), hb⟩
      · split at h
        · rename_i tail _
          simp only [Option.map_eq_some_iff] at h
          obtain ⟨⟨i, r⟩, hclosed, heq⟩ := h
          simp only [Prod.mk.injEq] at heq
          obtain ⟨rfl, rfl, rfl⟩ := heq
          exact ⟨tail, rfl, List.not_mem_nil, hclosed⟩
        · cases h

/-- **What `operatorParentheses` matches**: brackets around something, an opening parenthesis right behind them, and
the last closing one before the next that opens. -/
theorem operatorParentheses_some {cs new rest : List Char} (h : operatorParentheses cs = some (new, rest)) :
    ∃ before inner, before ≠ [] ∧ '[' ∉ before ∧ inner ≠ [] ∧ '(' ∉ inner ∧ ')' ∉ rest.takeWhile (· != '(') ∧
      cs = '[' :: (before ++ ']' :: '(' :: (inner ++ ')' :: rest)) ∧ new = '[' :: (before ++ ']' :: inner) := by
  unfold operatorParentheses at h
  split at h
  · rename_i cs'
    split at h
    · rename_i c before inner rest' hlast
      simp only [Option.some.injEq, Prod.mk.injEq] at h
      obtain ⟨rfl, rfl⟩ := h
      obtain ⟨tail, hcs, hb, hclosed⟩ := lastOperator?_some hlast
      obtain ⟨htail, hne, hno, hlast'⟩ := closed?_some hclosed
      exact ⟨c :: before, inner, by simp, hb, hne, hno, hlast', by rw [hcs, htail], rfl⟩
    · cases h
  · cases h

/-! ## Where operators are matched -/

theorem splitLast?_append {x : Char} {after : List Char} (h : x ∉ after) : ∀ before : List Char,
    splitLast? [x] (before ++ x :: after) = some (before, after)
  | [] => by
    have hnone : splitLast? [x] after = none := by
      cases hs : splitLast? [x] after with
      | none => rfl
      | some m => exact absurd (by rw [(splitLast?_some hs).1]; simp) h
    rw [List.nil_append, splitLast?, hnone]
    simp
  | c :: before => by rw [List.cons_append, splitLast?, splitLast?_append h before]

theorem bne_of_not_mem {o c : Char} {a : List Char} (ho : o ∉ a) (hc : c ≠ o) : ∀ x ∈ a ++ [c], (x != o) = true := by
  intro x hx
  rw [bne_iff_ne]
  rintro rfl
  rcases List.mem_append.1 hx with hx | hx
  · exact ho hx
  · exact hc (List.mem_singleton.1 hx).symm

theorem takeWhile_append_cons {o c : Char} {a : List Char} (ho : o ∉ a) (hc : c ≠ o) (r : List Char) :
    (a ++ c :: r).takeWhile (· != o) = a ++ c :: r.takeWhile (· != o) := by
  rw [List.append_cons, List.takeWhile_append_of_pos (bne_of_not_mem ho hc), List.append_assoc, List.singleton_append]

theorem dropWhile_append_cons {o c : Char} {a : List Char} (ho : o ∉ a) (hc : c ≠ o) (r : List Char) :
    (a ++ c :: r).dropWhile (· != o) = r.dropWhile (· != o) := by
  rw [List.append_cons, List.dropWhile_append_of_pos (bne_of_not_mem ho hc)]

theorem closed?_append {inner rest : List Char} (hne : inner ≠ []) (hopen : '(' ∉ inner)
    (hrest : ')' ∉ rest.takeWhile (· != '(')) : closed? (inner ++ ')' :: rest) = some (inner, rest) := by
  unfold closed?
  simp only
  rw [takeWhile_append_cons hopen (by decide), dropWhile_append_cons hopen (by decide), splitLast?_append hrest]
  obtain ⟨c, inner, rfl⟩ := List.exists_cons_of_ne_nil hne
  simp only [List.takeWhile_append_dropWhile]

theorem lastOperator?_eq_none : ∀ {cs : List Char}, ']' ∉ cs.takeWhile (· != '[') → lastOperator? cs = none
  | [], _ => rfl
  | c :: cs, h => by
    rw [List.takeWhile_cons] at h
    unfold lastOperator?
    by_cases hc : c = '['
    · subst hc
      rfl
    · rw [if_pos (by rwa [bne_iff_ne]), List.mem_cons, not_or] at h
      rw [if_neg (by rwa [beq_iff_eq]), lastOperator?_eq_none h.2]
      simp only
      split
      · exact absurd rfl h.1
      · rfl

theorem lastOperator?_append {tail inner rest : List Char} (htail : ']' ∉ tail.takeWhile (· != '['))
    (hclosed : closed? tail = some (inner, rest)) : ∀ {before : List Char}, '[' ∉ before →
    lastOperator? (before ++ ']' :: '(' :: tail) = some (before, inner, rest)
  | [], _ => by
    have hnone : lastOperator? ('(' :: tail) = none := lastOperator?_eq_none (by simpa using htail)
    rw [List.nil_append, lastOperator?, hnone, hclosed]
    rfl
  | c :: before, h => by
    rw [List.mem_cons, not_or] at h
    unfold lastOperator?
    rw [List.cons_append]
    simp only
    rw [lastOperator?_append htail hclosed h.2, if_neg (by rw [beq_iff_eq]; exact Ne.symm h.1)]

/-- **Where brackets close properly, `operatorParentheses` takes the parenthesis behind them** and the last one that
closes before the next that opens. -/
theorem operatorParentheses_append {before inner rest : List Char} (hne : before ≠ []) (hbefore : '[' ∉ before)
    (hinner : inner ≠ []) (hopen : '(' ∉ inner) (hrest : ')' ∉ rest.takeWhile (· != '('))
    (hbrackets : ']' ∉ (inner ++ ')' :: rest).takeWhile (· != '[')) :
    operatorParentheses ('[' :: (before ++ ']' :: '(' :: (inner ++ ')' :: rest))) =
      some ('[' :: (before ++ ']' :: inner), rest) := by
  obtain ⟨c, before, rfl⟩ := List.exists_cons_of_ne_nil hne
  rw [operatorParentheses, lastOperator?_append hbrackets (closed?_append hinner hopen hrest) hbefore]
  rfl

/-- **The closing bracket of an operator is the only one before the next that opens.** -/
theorem closing_bracket_unique {a b k rest : List Char} (ha : '[' ∉ a) (hb : ']' ∉ b)
    (hk : ']' ∉ k.takeWhile (· != '[')) (h : a ++ ']' :: rest = b ++ ']' :: k) : a = b ∧ rest = k := by
  rcases List.append_eq_append_iff.1 h with ⟨x, rfl, hx⟩ | ⟨x, rfl, hx⟩
  · cases x with
    | nil => simpa using hx
    | cons c x =>
      rw [List.cons_append, List.cons.injEq] at hx
      exact absurd (by rw [← hx.1]; simp) hb
  · cases x with
    | nil => simpa [eq_comm] using hx
    | cons c x =>
      rw [List.cons_append, List.cons.injEq] at hx
      obtain ⟨rfl, rfl⟩ := hx
      refine absurd ?_ hk
      rw [takeWhile_append_cons (fun hm => ha (by simp [hm])) (by decide)]
      simp

/-- **Where brackets close properly, `operatorParentheses` matches only** if a parenthesis opens right behind them and
one closes before the next that opens. -/
theorem operatorParentheses_closed {before tail : List Char} (hbefore : ']' ∉ before)
    (hbrackets : ']' ∉ tail.takeWhile (· != '[')) {m : List Char × List Char}
    (h : operatorParentheses ('[' :: (before ++ ']' :: tail)) = some m) :
    ∃ rest, tail = '(' :: rest ∧ ')' ∈ rest.takeWhile (· != '(') := by
  obtain ⟨new, after⟩ := m
  obtain ⟨b, inner, -, hb, -, hopen, -, hcs, -⟩ := operatorParentheses_some h
  obtain ⟨-, rfl⟩ := closing_bracket_unique hb hbefore hbrackets (List.cons.inj hcs).2.symm
  refine ⟨_, rfl, ?_⟩
  rw [takeWhile_append_cons hopen (by decide)]
  simp

/-! ## Agent types -/

theorem agentTypeEnd?_some {cs rest : List Char} (h : agentTypeEnd? cs = some rest) :
    ∃ blanks, (∀ c ∈ blanks, isBlank c = true) ∧ cs = "-agent".toList ++ (blanks ++ ']' :: rest) := by
  unfold agentTypeEnd? at h
  split at h
  · rename_i hpre
    obtain ⟨tail, rfl⟩ := List.isPrefixOf_iff_prefix.1 hpre
    split at h
    · rename_i rest' hd
      simp only [Option.some.injEq] at h
      subst h
      refine ⟨tail.takeWhile isBlank, takeWhile_all tail, ?_⟩
      have hdrop : ("-agent".toList ++ tail).drop 6 = tail := rfl
      rw [hdrop] at hd
      rw [← eq_append_of_dropWhile hd]
    · cases h
  · cases h

theorem lastAgentType?_some : ∀ {cs before rest : List Char}, lastAgentType? cs = some (before, rest) →
    ∃ tail, cs = before ++ tail ∧ '[' ∉ before ∧ agentTypeEnd? tail = some rest
  | [], _, _, h => by cases h
  | c :: cs, before, rest, h => by
    unfold lastAgentType? at h
    split at h
    · cases h
    · rename_i hc
      split at h
      · rename_i b r hrest
        obtain ⟨tail, hcs, hb, hend⟩ := lastAgentType?_some hrest
        simp only [Option.some.injEq, Prod.mk.injEq] at h
        obtain ⟨rfl, rfl⟩ := h
        refine ⟨tail, by rw [hcs, List.cons_append], ?_, hend⟩
        rw [List.mem_cons, not_or]
        exact ⟨fun he => hc (by rw [← he]; rfl), hb⟩
      · simp only [Option.map_eq_some_iff, Prod.mk.injEq] at h
        obtain ⟨r, hend, rfl, rfl⟩ := h
        exact ⟨c :: cs, rfl, List.not_mem_nil, hend⟩

/-- **What `agentType` matches**: an opening bracket and the last agent type before the next one that closes
brackets. -/
theorem agentType_some {cs new rest : List Char} (h : agentType cs = some (new, rest)) :
    ∃ before blanks, before ≠ [] ∧ '[' ∉ before ∧ (∀ c ∈ blanks, isBlank c = true) ∧
      cs = '[' :: (before ++ ("-agent".toList ++ (blanks ++ ']' :: rest))) ∧ new = '[' :: (before ++ [']']) := by
  unfold agentType at h
  split at h
  · rename_i cs'
    split at h
    · rename_i c before rest' hlast
      simp only [Option.some.injEq, Prod.mk.injEq] at h
      obtain ⟨rfl, rfl⟩ := h
      obtain ⟨tail, hcs, hb, hend⟩ := lastAgentType?_some hlast
      obtain ⟨blanks, hblank, htail⟩ := agentTypeEnd?_some hend
      exact ⟨c :: before, blanks, by simp, hb, hblank, by rw [hcs, htail], rfl⟩
    · cases h
  · cases h

/-! ## Where rules begin -/

theorem agentType_of_ne (c : Char) (cs : List Char) (h : c ≠ '[') : agentType (c :: cs) = none := by
  unfold agentType
  split
  · rename_i hc; exact absurd (List.cons.inj hc).1 h
  · rfl

theorem operatorParentheses_of_ne (c : Char) (cs : List Char) (h : c ≠ '[') :
    operatorParentheses (c :: cs) = none := by
  unfold operatorParentheses
  split
  · rename_i hc; exact absurd (List.cons.inj hc).1 h
  · rfl

theorem doubleParentheses_of_ne (c : Char) (cs : List Char) (h : c ≠ '(') : doubleParentheses (c :: cs) = none := by
  unfold doubleParentheses
  split
  · rename_i hc; exact absurd (List.cons.inj hc).1 h
  · rfl

/-! ## Ends and opening parentheses -/

theorem agentType_consumes : Rule.Consumes agentType := by
  intro c cs new rest h
  obtain ⟨before, blanks, -, -, -, hcs, -⟩ := agentType_some h
  rw [(List.cons.inj hcs).2]
  exact ⟨before ++ ("-agent".toList ++ (blanks ++ [']'])), by simp only [List.append_assoc, List.singleton_append]⟩

theorem doubleParentheses_consumes : Rule.Consumes doubleParentheses := by
  intro c cs new rest h
  obtain ⟨b₁, b₂, -, -, -, -, hcs⟩ := doubleParentheses_some h
  rw [(List.cons.inj hcs).2]
  exact ⟨b₁ ++ '(' :: (new ++ ')' :: (b₂ ++ [')'])), by
    simp only [List.append_assoc, List.cons_append, List.nil_append]⟩

theorem operatorParentheses_consumes : Rule.Consumes operatorParentheses := by
  intro c cs new rest h
  obtain ⟨before, inner, -, -, -, -, -, hcs, -⟩ := operatorParentheses_some h
  rw [(List.cons.inj hcs).2]
  exact ⟨before ++ ']' :: '(' :: (inner ++ [')']), by simp only [List.append_assoc, List.cons_append, List.nil_append]⟩

/-- Each replacement of `doubleParentheses` takes two pairs of parentheses away. -/
theorem doubleParentheses_takes {p : Char} (hp : p = '(' ∨ p = ')') : Rule.Takes doubleParentheses p 2 := by
  intro c cs new rest h
  obtain ⟨b₁, b₂, hb₁, hb₂, -, -, hcs⟩ := doubleParentheses_some h
  have hblank : ∀ {b : List Char}, (∀ c ∈ b, isBlank c = true) → b.count p = 0 := by
    intro b hb
    refine List.count_eq_zero.2 fun hm => ?_
    have hp' := hb p hm
    rcases hp with rfl | rfl <;> exact absurd hp' (by decide)
  rw [hcs]
  rcases hp with rfl | rfl <;> simp [List.count_append, hblank hb₁, hblank hb₂] <;> omega

/-- Each replacement of `operatorParentheses` takes one pair of parentheses away. -/
theorem operatorParentheses_takes {p : Char} (hp : p = '(' ∨ p = ')') : Rule.Takes operatorParentheses p 1 := by
  intro c cs new rest h
  obtain ⟨before, inner, -, -, -, -, -, hcs, rfl⟩ := operatorParentheses_some h
  rw [hcs]
  rcases hp with rfl | rfl <;> simp [List.count_append] <;> omega

end Epistemic.Source
