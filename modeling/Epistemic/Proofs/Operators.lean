import Epistemic.Source.Nesting
/-!
# Operators as words

The agents between brackets become one word, `operatorName`: the tokens of a bracket, taken outside of any other, add
that word to the current list and leave all else as it was (`run_operator`).
-/
namespace Epistemic

/-- A piece does not stand in a text that lacks one of its characters. -/
theorem Text.replaceFrom_of_not_mem {d : Char} {piece new : List Char} (hd : d ∈ piece) : ∀ {cs : List Char}, d ∉ cs →
    Text.replaceFrom piece new 0 cs = cs := by
  intro cs
  induction cs with
  | nil => intro _; rfl
  | cons c cs ih =>
    intro h
    have hpiece : piece.isPrefixOf (c :: cs) = false := by
      rw [← Bool.not_eq_true, List.isPrefixOf_iff_prefix]
      exact fun hp => h (hp.subset hd)
    rw [Text.replaceFrom, hpiece, if_neg Bool.false_ne_true, ih fun hm => h (List.mem_cons_of_mem c hm)]

namespace Source

/-- The word that agents in brackets are read into. -/
def operatorName (agents : List String) : String :=
  (if agents.length ≤ 1 then "B(" else "C(") ++ String.intercalate "," agents ++ ","

/-- The mark of one agent is exchanged for that of several where it opens the word, and there only. -/
theorem replaceAll_belief (cs : List Char) (h : '(' ∉ cs) :
    Text.replaceAll "B(".toList "C(".toList ("B(".toList ++ cs) = "C(".toList ++ cs := by
  show ['C', '('] ++ Text.replaceFrom ['B', '('] ['C', '('] 0 cs = ['C', '('] ++ cs
  rw [Text.replaceFrom_of_not_mem (by decide : '(' ∈ ['B', '(']) h]

theorem not_mem_intercalate {x : Char} {sep : List Char} (hsep : x ∉ sep) : ∀ {ls : List (List Char)},
    (∀ l ∈ ls, x ∉ l) → x ∉ sep.intercalate ls
  | [], _ => List.not_mem_nil
  | [l], h => by rw [List.intercalate_singleton]; exact h l List.mem_cons_self
  | l :: k :: ls, h => by
    rw [List.intercalate_cons_cons, List.mem_append, List.mem_append, not_or, not_or]
    exact ⟨⟨h l List.mem_cons_self, hsep⟩, not_mem_intercalate hsep fun m hm => h m (List.mem_cons_of_mem l hm)⟩

theorem not_mem_intercalate_toList {x : Char} {sep : List Char} (hsep : x ∉ sep) {ws : List String}
    (h : ∀ w ∈ ws, x ∉ w.toList) : x ∉ sep.intercalate (ws.map String.toList) := by
  refine not_mem_intercalate hsep fun l hl => ?_
  obtain ⟨w, hw, rfl⟩ := List.mem_map.1 hl
  exact h w hw

namespace Nest

theorem run_cons {n m : Nest} {t : Token} (h : n.step t = .ok m) (ts : List Token) : run (t :: ts) n = run ts m := by
  rw [run, h]

/-- Outside of brackets, with no operator begun. -/
def Outside (n : Nest) : Prop := n.inAgents = false ∧ n.several = false

/-- What items that were added to the current list leave as it was, and what they change. -/
structure Grown (n m : Nest) (items : List Tree) : Prop where
  outside : m.Outside
  outer : m.outer = n.outer
  items : m.items = items.reverse ++ n.items

theorem Grown.refl {n : Nest} (h : n.Outside) : n.Grown n [] := ⟨h, rfl, rfl⟩

theorem Grown.trans {n m k : Nest} {xs ys : List Tree} (h₁ : n.Grown m xs) (h₂ : m.Grown k ys) :
    n.Grown k (xs ++ ys) :=
  ⟨h₂.outside, h₂.outer.trans h₁.outer, by rw [h₂.items, h₁.items, List.reverse_append, List.append_assoc]⟩

theorem grown_push {n : Nest} (h : n.Outside) (t : Tree) : n.Grown (n.push t) [t] := ⟨h, rfl, rfl⟩

theorem run_word {n : Nest} (h : n.Outside) (w : String) (ts : List Token) :
    run (.word w :: ts) n = run ts (n.push (.word w)) := by
  refine run_cons ?_ ts
  rw [step, h.1]
  rfl

/-- Agents behind the first are joined to the operator by commas. -/
theorem run_agents : ∀ (agents done : List String) (ts : List Token) (n : Nest), n.inAgents = true →
    n.firstAgent = false → done ≠ [] → n.operator = "B(" ++ String.intercalate "," done →
    run (agents.map .word ++ ts) n = run ts { n with
      several := n.several || !agents.isEmpty
      operator := "B(" ++ String.intercalate "," (done ++ agents) }
  | [], done, ts, n, _, _, _, hop => by
    rw [List.append_nil, ← hop]
    simp only [List.map_nil, List.nil_append, List.isEmpty_nil, Bool.not_true, Bool.or_false]
  | a :: agents, done, ts, n, hin, hfirst, hdone, hop => by
    rw [List.map_cons, List.cons_append, run, step, hin]
    simp only [if_true, hfirst, Bool.not_false, Bool.or_true, Bool.false_eq_true, if_false]
    rw [run_agents agents (done ++ [a]) ts]
    · simp only [List.append_assoc, List.singleton_append, List.isEmpty_cons, Bool.not_false, Bool.or_true,
        Bool.true_or]
    · rfl
    · rfl
    · simp
    · rw [hop, String.intercalate_append_of_ne_nil hdone (by simp), String.intercalate_singleton]
      simp only [String.append_assoc]

/-- **Brackets add their operator to the current list**, and leave all else as it was. -/
theorem run_operator (agents : List String) (hagents : ∀ a ∈ agents, '(' ∉ a.toList) (ts : List Token) (n : Nest)
    (hn : n.Outside) :
    ∃ m, run (.openAgents :: (agents.map .word ++ .closeAgents :: ts)) n = run ts m ∧
      n.Grown m [.word (operatorName agents)] := by
  cases agents with
  | nil =>
    refine ⟨_, rfl, ⟨⟨rfl, rfl⟩, rfl, ?_⟩⟩
    simp only [hn.2, Bool.false_eq_true, if_false]
    rfl
  | cons a agents =>
    rw [run_cons rfl, List.map_cons, List.cons_append, run_cons rfl,
      run_agents agents [a] _ _ rfl rfl (by simp) (by rw [String.intercalate_singleton]; rfl), run_cons rfl]
    refine ⟨_, rfl, ⟨⟨rfl, rfl⟩, rfl, ?_⟩⟩
    simp only [hn.2, Bool.not_true, Bool.false_or, List.singleton_append, List.reverse_singleton, List.cons.injEq,
      and_true, Tree.word.injEq]
    cases agents with
    | nil => rfl
    | cons b agents =>
      have hlist : ("B(" ++ String.intercalate "," (a :: b :: agents) ++ ",").toList =
          "B(".toList ++ (String.intercalate "," (a :: b :: agents) ++ ",").toList := by
        simp only [String.toList_append, List.append_assoc]
      have hno : '(' ∉ (String.intercalate "," (a :: b :: agents) ++ ",").toList := by
        rw [String.toList_append, String.toList_intercalate, List.mem_append, not_or]
        refine ⟨not_mem_intercalate (by decide) fun l hl => ?_, by decide⟩
        obtain ⟨c, hc, rfl⟩ := List.mem_map.1 hl
        exact hagents c hc
      rw [List.isEmpty_cons, Bool.not_false, if_pos rfl, hlist, replaceAll_belief _ hno,
        String.ofList_append, String.ofList_toList, String.ofList_toList, operatorName, if_neg (by simp),
        String.append_assoc]

end Nest
end Source
end Epistemic
