import Epistemic.Tree
/-!
# Guards

The conditions under which an effect takes place or an agent observes: formulas that must hold and formulas that must
not. That there is no condition is written as one condition with one empty word; such blanks are cleared away when the
guard is printed.
-/
namespace Epistemic

/-- Conditions, by sign. -/
structure Guard where
  positive : List Tree
  negative : List Tree
  deriving DecidableEq, Inhabited, Repr

/-- No condition, written out. -/
def blankConditions : List Tree := [.list [.word ""]]

/-- The guard of what is not guarded. -/
def Guard.blank : Guard := ⟨blankConditions, blankConditions⟩

/-- An effect or observer: what it speaks of, the place of its guard in a table, and the agents that it leaves out.
Those that stand in the scope of one guard share it. -/
structure Entry where
  body : Tree
  guard : Nat
  excluded : List Tree
  deriving DecidableEq, Repr

/-- The guard at a place of a table. -/
def guardAt (guards : List Guard) (i : Nat) : Guard := guards.getD i ⟨[], []⟩

theorem guardAt_set (guards : List Guard) (i j : Nat) (g : Guard) :
    guardAt (guards.set i g) j = if i = j ∧ j < guards.length then g else guardAt guards j := by
  simp only [guardAt, List.getD_eq_getElem?_getD, List.getElem?_set]
  by_cases hij : i = j
  · subst hij
    by_cases hi : i < guards.length <;> simp [hi]
  · simp [hij]

/-- An entry with its guard. -/
structure Clause where
  body : Tree
  positive : List Tree
  negative : List Tree
  excluded : List Tree
  deriving DecidableEq, Repr

/-- The entry with its guard looked up. -/
def Entry.clause (guards : List Guard) (e : Entry) : Clause :=
  let g := guardAt guards e.guard
  ⟨e.body, g.positive, g.negative, e.excluded⟩

/-- Adds clauses to a table, each with a guard of its own: the table and the entries. -/
def addClauses (guards : List Guard) (cs : List Clause) : List Guard × List Entry :=
  (guards ++ cs.map fun c => ⟨c.positive, c.negative⟩,
    cs.mapIdx fun i c => ⟨c.body, guards.length + i, c.excluded⟩)

/-- The entries of added clauses are those clauses again, with the guards that the table has for them, also when more
guards are added to it. -/
theorem map_clause_addClauses (guards more : List Guard) (cs : List Clause) :
    (addClauses guards cs).2.map (Entry.clause ((addClauses guards cs).1 ++ more)) = cs := by
  apply List.ext_getElem?
  intro i
  simp only [addClauses, List.getElem?_map, List.getElem?_mapIdx]
  cases h : cs[i]? with
  | none => rfl
  | some c =>
    have hg : (guards ++ (cs.map fun c => (⟨c.positive, c.negative⟩ : Guard)) ++ more)[guards.length + i]? =
        some ⟨c.positive, c.negative⟩ := by
      rw [List.append_assoc, List.getElem?_append_right (Nat.le_add_right _ _), Nat.add_sub_cancel_left]
      have hi : i < (cs.map fun c => (⟨c.positive, c.negative⟩ : Guard)).length := by
        rw [List.length_map]
        exact (List.getElem?_eq_some_iff.1 h).1
      rw [List.getElem?_append_left hi, List.getElem?_map, h]
      rfl
    simp only [Option.map_some, Entry.clause, guardAt, List.getD_eq_getElem?_getD, hg, Option.getD_some]

/-- A clause as a tree of four parts. -/
def Clause.tree (c : Clause) : Tree :=
  .list [c.body, .list c.positive, .list c.negative, .list c.excluded]

/-- The clause that a tree of four parts is. -/
def Clause.ofTree? (t : Tree) : Option Clause :=
  match t.items with
  | [body, positive, negative, excluded] => some ⟨body, positive.items, negative.items, excluded.items⟩
  | _ => none

end Epistemic
