import Epistemic.Effect.Guard
import Epistemic.Fault
/-!
# Clearing blanks from conditions

Before conditions are printed, an empty word is taken out of each, and then conditions without words are taken out.
The second sweep passes over the condition behind one that it has taken out, so of several empty conditions in a row
some stay.
-/
namespace Epistemic

/-- Takes the first empty word out of each condition, up to one that is itself a word. -/
def clearBlanks : List Tree → List Tree × Option Fault
  | [] => ([], none)
  | .word w :: cs => (.word w :: cs, some .wordForList)
  | .list xs :: cs =>
    let (cs, fault) := clearBlanks cs
    (.list (xs.erase (.word "")) :: cs, fault)

/-- Sweeps empty conditions out of a list of which `seen` has been passed. For each that is met, the first one of the
list goes, and the next condition is passed over. -/
def dropEmpties : (seen : List Tree) → List Tree → List Tree
  | seen, [] => seen
  | seen, [c] => if c == .list [] then (seen ++ [c]).erase c else seen ++ [c]
  | seen, c :: d :: cs =>
    if c == .list [] then dropEmpties ((seen ++ [c]).erase c ++ [d]) cs
    else dropEmpties (seen ++ [c]) (d :: cs)

/-- The conditions cleared for printing, and what stopped it. -/
def tidy (cs : List Tree) : List Tree × Option Fault :=
  match clearBlanks cs with
  | (cs, some e) => (cs, some e)
  | (cs, none) => (dropEmpties [] cs, none)

/-- No conditions, before they are cleared or after. -/
def AreNone (cs : List Tree) : Prop := cs = blankConditions ∨ cs = []

theorem tidy_of_areNone {cs : List Tree} (h : AreNone cs) : tidy cs = ([], none) := by
  rcases h with rfl | rfl <;> rfl

theorem tidy_single {xs : List Tree} (hne : xs ≠ []) (hblank : .word "" ∉ xs) :
    tidy [.list xs] = ([.list xs], none) := by
  simp [tidy, clearBlanks, dropEmpties, List.erase_of_not_mem hblank, hne]

/-- Conditions as they were printed: the text, the conditions that are left, and whether something was printed. -/
structure PrintedConditions where
  text : String
  left : List Tree
  outcome : Except Fault Bool

/-- A guard as it was printed. -/
structure PrintedGuard where
  text : String
  left : Guard
  outcome : Except Fault Bool

/-- Prints the positive and then the negative conditions of a guard, where `print` is told whether they are positive and
whether nothing has been printed before them. -/
def printBoth (print : (positive first : Bool) → List Tree → PrintedConditions) (g : Guard) : PrintedGuard :=
  let pos := print true true g.positive
  match pos.outcome with
  | .error e => ⟨pos.text, ⟨pos.left, g.negative⟩, .error e⟩
  | .ok printed =>
    let neg := print false (!printed) g.negative
    ⟨pos.text ++ neg.text, ⟨pos.left, neg.left⟩, neg.outcome.map (printed || ·)⟩

end Epistemic
