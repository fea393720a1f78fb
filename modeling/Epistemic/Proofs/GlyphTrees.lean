import Epistemic.Proofs.GlyphSigns
/-!
# Trees of glyphs

The tokens of glyphs make the tree of their signs, and signs of forms add their trees to the list that is open
(`pile_signs`), so that a text makes a tree exactly if its forms are that tree alone (`nest_spell`).
-/
namespace Epistemic.Source
namespace Glyph

theorem tokensFrom_bracket (k : List Char) : ∀ {a : List Char}, (∀ c ∈ a, mark? c = none) → ∀ letters : List Char,
    tokensFrom letters (a ++ ']' :: k) = tokensFrom letters a ++ .closeAgents :: tokens k
  | [], _, _ => rfl
  | c :: a, h, letters => by
    have ih := @tokensFrom_bracket k a fun d hd => h d (List.mem_cons_of_mem c hd)
    rw [List.cons_append, tokensFrom, tokensFrom, h c List.mem_cons_self]
    simp only
    split
    · rw [ih, List.append_assoc]
    · exact ih (c :: letters)

theorem finishedWord_eq (letters : List Char) : finishedWord letters = (finished letters).map .word := by
  unfold finishedWord finished
  split <;> rfl

theorem mem_finished {letters : List Char} {w : String} (hw : w ∈ finished letters) {c : Char} (hc : c ∈ w.toList) :
    c ∈ letters := by
  unfold finished at hw
  split at hw
  · cases hw
  · rw [List.mem_singleton.1 hw, String.toList_ofList] at hc
    exact List.mem_reverse.1 hc

/-- A text without marks is cut into words, each of some of its characters. -/
theorem tokensFrom_words : ∀ {a : List Char}, (∀ c ∈ a, mark? c = none) → ∀ {letters : List Char},
    (∀ c ∈ letters, mark? c = none) → ∃ ws : List String, tokensFrom letters a = ws.map .word ∧ ∀ w ∈ ws, '(' ∉ w.toList
  | [], _, letters, hl => by
    refine ⟨finished letters, finishedWord_eq letters, fun w hw hm => ?_⟩
    exact (ne_of_mark?_none (hl _ (mem_finished hw hm))).1 rfl
  | c :: a, h, letters, hl => by
    have ih := @tokensFrom_words a fun d hd => h d (List.mem_cons_of_mem c hd)
    rw [tokensFrom, h c List.mem_cons_self]
    simp only
    split
    · obtain ⟨ws, hws, hno⟩ := @ih [] (by simp)
      refine ⟨finished letters ++ ws, by rw [hws, finishedWord_eq, List.map_append], fun w hw => ?_⟩
      rcases List.mem_append.1 hw with hw | hw
      · exact fun hm => (ne_of_mark?_none (hl _ (mem_finished hw hm))).1 rfl
      · exact hno w hw
    · refine @ih (c :: letters) fun d hd => ?_
      rcases List.mem_cons.1 hd with rfl | hd
      · exact h d List.mem_cons_self
      · exact hl d hd

theorem tokens_agents {a : List Char} (h : ∀ c ∈ a, mark? c = none) :
    tokens a = (agentsIn a).map .word ∧ ∀ w ∈ agentsIn a, '(' ∉ w.toList := by
  obtain ⟨ws, hws, hno⟩ := @tokensFrom_words a h [] (by simp)
  have hagents : agentsIn a = ws := by
    rw [agentsIn, tokens, hws, List.filterMap_map]
    exact List.filterMap_some
  rw [hagents]
  exact ⟨hws, hno⟩

/-! ## Piles -/

/-- The tree that signs make inside lists that are open, where `items` are those of the current one, the last one
first. -/
def pile : List Sign → (outer : List (List Tree)) → (items : List Tree) → Except NestingFault Tree
  | [], outer, items => Nest.finish { outer, items }
  | .word w :: s, outer, items => pile s outer (.word w :: items)
  | .opens _ :: s, outer, items => pile s (items :: outer) []
  | .closes :: _, [], _ => .error .missingOpen
  | .closes :: s, around :: outer, items => pile s outer (.list items.reverse :: around)

theorem pile_words (k : List Sign) (outer : List (List Tree)) : ∀ (ws : List String) (items : List Tree),
    pile (ws.map .word ++ k) outer items = pile k outer ((ws.map Tree.word).reverse ++ items)
  | [], _ => rfl
  | w :: ws, items => by
    rw [List.map_cons, List.cons_append, pile, pile_words k outer ws, List.map_cons, List.reverse_cons,
      List.append_assoc, List.singleton_append]

/-- **Forms add their trees to the current list.** -/
theorem pile_signs : ∀ (f : Forms) (k : List Sign) (outer : List (List Tree)) (items : List Tree),
    pile (f.signs ++ k) outer items = pile k outer (f.trees.reverse ++ items)
  | .nil, _, _, _ => rfl
  | .leaf w r, k, outer, items => by
    rw [Forms.signs, List.cons_append, pile, pile_signs r, Forms.trees, List.reverse_cons, List.append_assoc,
      List.singleton_append]
  | .list g i r, k, outer, items => by
    rw [Forms.signs, List.cons_append, List.append_assoc, List.cons_append, pile, pile_signs i, List.append_nil, pile,
      List.reverse_reverse, pile_signs r, Forms.trees, List.reverse_cons, List.append_assoc, List.singleton_append]

/-- What tokens make of a tree in the making. -/
def made (ts : List Token) (n : Nest) : Except NestingFault Tree :=
  match Nest.run ts n with
  | .ok m => m.finish
  | .error e => .error e

theorem made_step {t : Token} {n m : Nest} (h : n.step t = .ok m) (ts : List Token) : made (t :: ts) n = made ts m := by
  rw [made, Nest.run_cons h, made]

theorem made_words (ts : List Token) : ∀ (ws : List String) {n : Nest}, n.Outside →
    ∃ m, made (ws.map .word ++ ts) n = made ts m ∧ n.Grown m (ws.map .word)
  | [], n, hn => ⟨n, rfl, .refl hn⟩
  | w :: ws, n, hn => by
    obtain ⟨m, hm, hgrown⟩ := made_words ts ws (Nest.grown_push hn (.word w)).outside
    refine ⟨m, ?_, (Nest.grown_push hn (.word w)).trans hgrown⟩
    rw [← hm, made, List.map_cons, List.cons_append, Nest.run_word hn, made]

/-- A word that has begun is finished before a token that is not one of its letters. -/
theorem made_finished {letters : List Char} {n : Nest} (hn : n.Outside) (ts : List Token) (k : List Sign)
    (h : ∀ m : Nest, m.Outside → made ts m = pile k m.outer m.items) :
    made (finishedWord letters ++ ts) n = pile ((finished letters).map .word ++ k) n.outer n.items := by
  obtain ⟨m, hm, hgrown⟩ := made_words ts (finished letters) hn
  rw [finishedWord_eq, hm, h m hgrown.outside, pile_words, hgrown.outer, hgrown.items]

/-- **The tokens of glyphs make the tree of their signs.** -/
theorem made_spell : ∀ {gs : List Glyph}, solid gs = true → ∀ (glued : Bool) (letters : List Char) {n : Nest},
    n.Outside → made (tokensFrom letters (spell gs)) n = pile (signsFrom glued letters gs) n.outer n.items
  | [], _, _, letters, n, hn => by
    have := @made_finished letters n hn [] [] fun _ _ => rfl
    rwa [List.append_nil, List.append_nil] at this
  | opens :: gs, h, glued, letters, n, hn => by
    have htokens : tokensFrom letters (spell (opens :: gs)) =
        finishedWord letters ++ .openList :: tokensFrom [] (spell gs) := rfl
    rw [htokens, signsFrom]
    refine made_finished hn _ _ fun m hm => ?_
    rw [made_step rfl]
    exact made_spell (solid_cons h).2 false [] hm
  | closes :: gs, h, glued, letters, n, hn => by
    have htokens : tokensFrom letters (spell (closes :: gs)) =
        finishedWord letters ++ .closeList :: tokensFrom [] (spell gs) := rfl
    rw [htokens, signsFrom]
    refine made_finished hn _ _ fun m hm => ?_
    cases hm' : m.outer with
    | nil =>
      rw [made, Nest.run, Nest.step, hm']
      rfl
    | cons around outer =>
      have hstep : m.step .closeList = .ok { m with outer, items := .list m.items.reverse :: around } := by
        rw [Nest.step, hm']
      rw [made_step hstep]
      exact made_spell (solid_cons h).2 false [] hm
  | operator a :: gs, h, glued, letters, n, hn => by
    obtain ⟨ha, hgs⟩ := solid_cons h
    obtain ⟨hagents, hno⟩ := tokens_agents fun c hc => mem_chars_operator ha hc
    have htokens : tokensFrom letters (spell (operator a :: gs)) = finishedWord letters ++
        .openAgents :: ((agentsIn a).map .word ++ .closeAgents :: tokensFrom [] (spell gs)) := by
      rw [spell_operator, ← hagents, tokens, tokensFrom]
      exact congrArg (finishedWord letters ++ .openAgents :: ·)
        (tokensFrom_bracket (spell gs) (fun c hc => mem_chars_operator ha hc) [])
    rw [htokens, signsFrom]
    refine made_finished hn _ _ fun m hm => ?_
    obtain ⟨m', hrun, hgrown⟩ := Nest.run_operator (agentsIn a) hno (tokensFrom [] (spell gs)) m hm
    have hmade : made (tokensFrom [] (spell gs)) m' = _ := made_spell hgs true [] hgrown.outside
    rw [made, hrun, ← made, hmade, pile, hgrown.outer, hgrown.items]
    rfl
  | other c :: gs, h, glued, letters, n, hn => by
    obtain ⟨hc, hgs⟩ := solid_cons h
    have hspell : spell (other c :: gs) = c :: spell gs := rfl
    rw [hspell, tokensFrom, mark?_of_other hc, signsFrom]
    simp only
    split
    · exact made_finished hn _ _ fun m hm => made_spell hgs false [] hm
    · exact made_spell hgs false (c :: letters) hn

theorem nest_spell {gs : List Glyph} (h : solid gs = true) {f : Forms} (hf : f.signs = signs gs) (t : Tree) :
    nest (tokens (spell gs)) = .ok t ↔ f.trees = [t] := by
  have hmade : nest (tokens (spell gs)) = made (tokens (spell gs)) {} := rfl
  have hpile := pile_signs f [] [] []
  rw [List.append_nil, List.append_nil, hf] at hpile
  rw [hmade, tokens, made_spell h false [] ⟨rfl, rfl⟩, ← signs, hpile, pile, Nest.finish,
    ← @List.reverse_inj _ f.trees [t], List.reverse_singleton]
  cases f.trees.reverse with
  | nil => simp
  | cons u us => cases us <;> simp

end Glyph
end Epistemic.Source
