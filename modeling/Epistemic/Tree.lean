import Epistemic.Text.Part
import Epistemic.Text.Quoted
/-!
# Token trees

What a planning file is read into: words, and lists of trees. Nothing says that a tree has the shape which a rule
expects, so the operations here are those that make sense on both kinds: a word is also the sequence of its characters.
-/
namespace Epistemic

/-- A word, or a list of trees. -/
inductive Tree where
  | word (text : String)
  | list (items : List Tree)
  deriving Inhabited, Repr

namespace Tree

mutual
/-- Whether two trees are the same. -/
def same : Tree → Tree → Bool
  | .word s, .word t => s == t
  | .list xs, .list ys => sameItems xs ys
  | _, _ => false
/-- Whether two lists of trees are the same. -/
def sameItems : List Tree → List Tree → Bool
  | [], [] => true
  | x :: xs, y :: ys => same x y && sameItems xs ys
  | _, _ => false
end

mutual
theorem same_iff : ∀ (x y : Tree), same x y = true ↔ x = y
  | .word s, .word t => by simp [same]
  | .list xs, .list ys => by simp [same, sameItems_iff xs ys]
  | .word _, .list _ => by simp [same]
  | .list _, .word _ => by simp [same]
theorem sameItems_iff : ∀ (xs ys : List Tree), sameItems xs ys = true ↔ xs = ys
  | [], [] => by simp [sameItems]
  | x :: xs, y :: ys => by simp [sameItems, same_iff x y, sameItems_iff xs ys]
  | [], _ :: _ => by simp [sameItems]
  | _ :: _, [] => by simp [sameItems]
end

instance : DecidableEq Tree := fun x y => decidable_of_iff _ (same_iff x y)

/-- What a tree holds, in order: the items of a list, the characters of a word. -/
def items : Tree → List Tree
  | .word s => s.toList.map fun c => .word (String.ofList [c])
  | .list xs => xs

/-- The item at a place. -/
def item? (t : Tree) (i : Nat) : Option Tree := t.items[i]?

/-- Whether the tree is a list. -/
def isList : Tree → Bool
  | .word _ => false
  | .list _ => true

/-- Whether the tree is a given word. -/
def isWord (t : Tree) (s : String) : Bool := t == .word s

/-- Whether the text stands in a word, or is itself an item of a list. -/
def mentions (t : Tree) (s : String) : Bool :=
  match t with
  | .word w => Text.occurs s.toList w.toList
  | .list xs => xs.contains (.word s)

/-- Whether a tree is headed by a belief operator of one agent, or stands for one. -/
def hasBelief (t : Tree) : Bool := t.mentions "B("

/-- Whether a tree is headed by a belief operator of several agents, or stands for one. -/
def hasCommonBelief (t : Tree) : Bool := t.mentions "C("

mutual
/-- A tree inside a shown list: words are quoted. -/
def shownInside : Tree → String
  | .word s => Text.quoted s
  | .list xs => "[" ++ String.intercalate ", " (shownItems xs) ++ "]"
/-- The items of a shown list. -/
def shownItems : List Tree → List String
  | [] => []
  | x :: xs => shownInside x :: shownItems xs
end

/-- A tree as it is shown by itself: a word as it is, a list with its words quoted. -/
def shown : Tree → String
  | .word s => s
  | .list xs => shownInside (.list xs)

mutual
/-- How deep lists are nested in the tree. -/
def depth : Tree → Nat
  | .word _ => 0
  | .list xs => depthItems xs + 1
/-- The greatest depth among trees. -/
def depthItems : List Tree → Nat
  | [] => 0
  | x :: xs => max (depth x) (depthItems xs)
end

end Tree

/-- A list of words. -/
def wordList (ws : List String) : Tree := .list (ws.map .word)

/-- So many closing parentheses. -/
def closings (n : Nat) : String := String.ofList (List.replicate n ')')

theorem closings_add (m n : Nat) : closings (m + n) = closings m ++ closings n := by
  rw [closings, ← List.replicate_append_replicate, String.ofList_append]
  rfl

theorem closings_succ (n : Nat) : closings (n + 1) = ")" ++ closings n := by
  rw [Nat.add_comm, closings_add]
  rfl

end Epistemic
