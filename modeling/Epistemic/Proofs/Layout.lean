import Epistemic.Proofs.Rendering
/-!
# Texts that are laid out

A document is laid out freely: blanks, tabs and line ends stand wherever one word does not follow another.  Such a text
is read into the trees that it lays out (`LaidOut.scan`) as long as none of its lists begins with a list, so that no
pair of parentheses is taken for one too many.
-/
namespace Epistemic.Source

open Text (isBlank)

/-- The blanks that documents are laid out with. -/
def isSpace (c : Char) : Bool := c == ' ' || c == '\t' || c == '\n'

/-- A text of words, blanks and lists, and the trees that it lays out. -/
inductive LaidOut : List Char → List Tree → Prop
  | nil : LaidOut [] []
  | blank {c : Char} {cs : List Char} {ts : List Tree} (hc : isSpace c = true) (h : LaidOut cs ts) :
      LaidOut (c :: cs) ts
  | word {w : String} {cs : List Char} {ts : List Tree} (hw : IsPlainWord w) (hd : Delimited cs) (h : LaidOut cs ts) :
      LaidOut (w.toList ++ cs) (.word w :: ts)
  | list {inner cs : List Char} {us ts : List Tree} (hus : ∀ u ∈ us.head?, u.isList = false) (hi : LaidOut inner us)
      (h : LaidOut cs ts) : LaidOut ('(' :: (inner ++ ')' :: cs)) (.list us :: ts)

theorem isSpace_iff {c : Char} : isSpace c = true ↔ c = ' ' ∨ c = '\t' ∨ c = '\n' := by
  simp [isSpace, or_assoc]

theorem isBlank_of_isSpace {c : Char} (h : isSpace c = true) : isBlank c = true := by
  rcases isSpace_iff.1 h with rfl | rfl | rfl <;> decide

theorem delimited_append {cs ds : List Char} (hc : Delimited cs) (hd : Delimited ds) : Delimited (cs ++ ds) := by
  cases cs with
  | nil => exact hd
  | cons c cs => exact hc

namespace LaidOut

variable {cs ds : List Char} {ts us : List Tree}

/-- Texts follow each other, with a delimiter between them. -/
theorem append (h : LaidOut cs ts) (hd : Delimited ds) (k : LaidOut ds us) : LaidOut (cs ++ ds) (ts ++ us) := by
  induction h with
  | nil => exact k
  | blank hc _ ih => exact .blank hc ih
  | word hw hdel _ ih =>
    rw [List.append_assoc]
    exact .word hw (delimited_append hdel hd) ih
  | @list inner cs us ts hus hi _ _ ih =>
    have heq : '(' :: (inner ++ ')' :: cs) ++ ds = '(' :: (inner ++ ')' :: (cs ++ ds)) := by simp
    rw [heq]
    exact .list hus hi ih

theorem chars (h : LaidOut cs ts) : ∀ c ∈ cs, isWordChar c = true ∨ isSpace c = true ∨ isParenthesis c = true := by
  induction h with
  | nil => simp
  | blank hc _ ih => exact List.forall_mem_cons.2 ⟨.inr (.inl hc), ih⟩
  | word hw _ _ ih => exact List.forall_mem_append.2 ⟨fun c hc => .inl (hw.2 c hc), ih⟩
  | list _ _ _ ihi ih =>
    refine List.forall_mem_cons.2 ⟨.inr (.inr rfl), List.forall_mem_append.2 ⟨ihi, ?_⟩⟩
    exact List.forall_mem_cons.2 ⟨.inr (.inr rfl), ih⟩

theorem plain_chars (h : LaidOut cs ts) : ∀ c ∈ cs, c ≠ '\r' ∧ c ≠ ';' ∧ Text.lower [c] = [c] := by
  intro c hc
  rcases h.chars c hc with hw | hs | hp
  · exact lower_of_isWordChar hw
  · rcases isSpace_iff.1 hs with rfl | rfl | rfl <;> decide
  · simp only [isParenthesis, Bool.or_eq_true, beq_iff_eq] at hp
    rcases hp with rfl | rfl <;> decide

theorem plain_eq (h : LaidOut cs ts) : plain (unifyNewlines cs) = cs := plain_eq_self h.plain_chars

theorem no_bracket (h : LaidOut cs ts) : '[' ∉ cs := by
  intro hm
  rcases h.chars _ hm with hw | hs | hp
  · exact absurd hw (by decide)
  · exact absurd hs (by decide)
  · exact absurd hp (by decide)

/-- What stands first in a list that does not begin with a list is not a parenthesis that opens one. -/
theorem dropWhile_isBlank (h : LaidOut cs ts) (hts : ∀ t ∈ ts.head?, t.isList = false) (k : List Char) :
    ∃ c r, (cs ++ ')' :: k).dropWhile isBlank = c :: r ∧ c ≠ '(' := by
  induction h with
  | nil => exact ⟨')', k, rfl, by decide⟩
  | blank hc _ ih =>
    rw [List.cons_append, List.dropWhile_cons_of_pos (isBlank_of_isSpace hc)]
    exact ih hts
  | @word w cs _ hw _ _ _ =>
    obtain ⟨c, letters, hletters⟩ := List.exists_cons_of_ne_nil hw.1
    have hc : isWordChar c = true := hw.2 c (by rw [hletters]; exact List.mem_cons_self)
    have hblank : isBlank c = false := (isWordChar_iff.1 hc).1
    refine ⟨c, letters ++ cs ++ ')' :: k, ?_, ?_⟩
    · rw [hletters, List.cons_append, List.cons_append, List.dropWhile_cons_of_neg (by rw [hblank]; decide)]
    · rintro rfl
      exact absurd hc (by decide)
  | list => exact absurd (hts _ rfl) (by simp [Tree.isList])

theorem doubleParentheses_open {cs : List Char} (h : ∃ c r, cs.dropWhile isBlank = c :: r ∧ c ≠ '(') :
    doubleParentheses ('(' :: cs) = none := by
  obtain ⟨c, r, hcs, hc⟩ := h
  simp only [doubleParentheses]
  split
  · rename_i heq
    rw [hcs] at heq
    exact absurd (List.cons.inj heq).1 hc
  · rfl

/-- **No parentheses are taken away.** -/
theorem still_double (h : LaidOut cs ts) {k : List Char} (hk : Still doubleParentheses k) :
    Still doubleParentheses (cs ++ k) := by
  induction h generalizing k with
  | nil => exact hk
  | @blank c _ _ hc _ ih =>
    refine ⟨doubleParentheses_of_ne _ _ ?_, ih hk⟩
    rintro rfl
    exact absurd hc (by decide)
  | word hw _ _ ih =>
    rw [List.append_assoc]
    exact still_append doubleParentheses_of_ne (ih hk) (hw.not_mem (by decide))
  | @list inner cs us ts hus hi _ ihi ih =>
    have heq : '(' :: (inner ++ ')' :: cs) ++ k = '(' :: (inner ++ ')' :: (cs ++ k)) := by simp
    rw [heq]
    -- The list itself begins with a word or is empty, and what is in it and behind it is still by induction.
    refine ⟨doubleParentheses_open (hi.dropWhile_isBlank hus _), ihi ?_⟩
    exact ⟨doubleParentheses_of_ne _ _ (by decide), ih hk⟩

theorem normalize_eq (h : LaidOut cs ts) : normalize .levels cs = cs := by
  have hdouble := h.still_double (k := []) trivial
  rw [List.append_nil] at hdouble
  have hstill : ∀ {rule : Rule}, (∀ c cs, c ≠ '[' → rule (c :: cs) = none) → Still rule cs := by
    intro rule hrule
    have := still_append hrule (k := []) trivial h.no_bracket
    rwa [List.append_nil] at this
  exact normalize_eq_self (hstill agentType_of_ne) hdouble (hstill operatorParentheses_of_ne)

theorem tokens_blank {c : Char} (h : isSpace c = true) (k : List Char) : tokens (c :: k) = tokens k := by
  rcases isSpace_iff.1 h with rfl | rfl | rfl <;> rfl

open Nest in
/-- **The tokens of a text add the trees that it lays out to the current list.** -/
theorem run_tokens (h : LaidOut cs ts) {k : List Char} (hk : Delimited k) {n : Nest} (hn : n.Outside) :
    ∃ m, run (tokens (cs ++ k)) n = run (tokens k) m ∧ n.Grown m ts := by
  induction h generalizing k n with
  | nil => exact ⟨n, rfl, .refl hn⟩
  | blank hc _ ih =>
    rw [List.cons_append, tokens_blank hc]
    exact ih hk hn
  | word hw hd _ ih =>
    obtain ⟨m, hrun, hgrown⟩ := ih hk (n := n.push (.word _)) hn
    refine ⟨m, ?_, (grown_push hn (.word _)).trans hgrown⟩
    rw [List.append_assoc, tokens_word hw (delimited_append hd hk), run_word hn, hrun]
  | @list inner cs us ts hus _ _ ihi ih =>
    have htokens : tokens ('(' :: (inner ++ ')' :: cs) ++ k) = .openList :: tokens (inner ++ ')' :: (cs ++ k)) := by
      simp [tokens, tokensFrom, mark?, finishedWord]
    -- The items are run with the list open, so that the parenthesis behind them closes it.
    have hclosing : Delimited (')' :: (cs ++ k)) := delimited_cons (by decide) (cs ++ k)
    obtain ⟨m₁, hrun₁, hgrown₁⟩ := ihi hclosing (n := { n with outer := n.items :: n.outer, items := [] }) hn
    have hclose : m₁.step .closeList = .ok { m₁ with outer := n.outer, items := .list us :: n.items } := by
      rw [step, hgrown₁.outer, hgrown₁.items]
      simp
    have hlist : n.Grown { m₁ with outer := n.outer, items := .list us :: n.items } [.list us] :=
      ⟨hgrown₁.outside, rfl, rfl⟩
    obtain ⟨m₂, hrun₂, hgrown₂⟩ := ih hk hlist.outside
    refine ⟨m₂, ?_, hlist.trans hgrown₂⟩
    rw [htokens, run_cons rfl, hrun₁, ← hrun₂]
    exact run_cons hclose _

/-- **A text that lays out one tree is read into it.** -/
theorem scan {text : String} {t : Tree} (h : LaidOut text.toList [t]) : Source.scan .levels text = .ok t := by
  obtain ⟨m, hrun, hgrown⟩ := h.run_tokens (k := []) (by simp [Delimited]) (n := {}) ⟨rfl, rfl⟩
  rw [List.append_nil] at hrun
  rw [Source.scan, h.plain_eq, h.normalize_eq, nest, hrun]
  simp only [tokens, tokensFrom, finishedWord, List.isEmpty_nil, if_true, Nest.run, Nest.finish, hgrown.outer,
    hgrown.items]
  rfl

/-- A list in parentheses. -/
theorem enclosed {text : String} (hts : ∀ t ∈ ts.head?, t.isList = false) (h : LaidOut text.toList ts) :
    LaidOut ("(" ++ text ++ ")").toList [.list ts] := by
  have heq : ("(" ++ text ++ ")").toList = '(' :: (text.toList ++ [')']) := by simp
  rw [heq]
  exact .list hts h .nil

/-- Words with a blank behind each. -/
theorem words {names : List String} (hnames : ∀ w ∈ names, IsPlainWord w) (h : LaidOut cs ts) :
    LaidOut ((String.join (names.map (· ++ " "))).toList ++ cs) (names.map .word ++ ts) := by
  induction names with
  | nil => exact h
  | cons w names ih =>
    obtain ⟨hw, hnames⟩ := List.forall_mem_cons.1 hnames
    have heq : (String.join ((w :: names).map (· ++ " "))).toList ++ cs =
        w.toList ++ ' ' :: ((String.join (names.map (· ++ " "))).toList ++ cs) := by
      simp [String.toList_join]
    rw [heq]
    exact .word hw (delimited_cons (by decide) _) (.blank (by decide) (ih hnames))

end LaidOut

/-- A text that may follow any other, with the trees that it lays out. -/
structure Segment (text : String) (ts : List Tree) : Prop where
  delimited : Delimited text.toList
  laidOut : LaidOut text.toList ts

namespace Segment

variable {a b : String} {ts us : List Tree}

theorem of_space {c : Char} {text : String} (hc : isSpace c = true) {cs : List Char} (heq : text.toList = c :: cs)
    (h : LaidOut cs ts) : Segment text ts := by
  have hblank : (isBlank c || (mark? c).isSome) = true := by rw [isBlank_of_isSpace hc, Bool.true_or]
  constructor
  · rw [heq]
    exact delimited_cons hblank cs
  · rw [heq]
    exact .blank hc h

theorem append (ha : Segment a ts) (hb : Segment b us) : Segment (a ++ b) (ts ++ us) := by
  constructor
  · rw [String.toList_append]
    exact delimited_append ha.delimited hb.delimited
  · rw [String.toList_append]
    exact ha.laidOut.append hb.delimited hb.laidOut

theorem join {α : Type} {text : α → String} {trees : α → List Tree} {xs : List α}
    (h : ∀ x ∈ xs, Segment (text x) (trees x)) : Segment (String.join (xs.map text)) (xs.flatMap trees) := by
  induction xs with
  | nil => exact ⟨by simp [Delimited], .nil⟩
  | cons x xs ih =>
    obtain ⟨hx, hxs⟩ := List.forall_mem_cons.1 h
    rw [List.map_cons, String.join_cons, List.flatMap_cons]
    exact hx.append (ih hxs)

/-- **A list that a word heads.** -/
theorem form {w text : String} (hw : IsPlainWord w) (h : Segment text ts) :
    LaidOut ("(" ++ (w ++ text) ++ ")").toList [.list (.word w :: ts)] := by
  refine .enclosed (by simp [Tree.isList]) ?_
  rw [String.toList_append]
  exact .word hw h.delimited h.laidOut

end Segment
end Epistemic.Source
