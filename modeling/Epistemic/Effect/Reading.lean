import Epistemic.Effect.Guard
import Epistemic.Fault
/-!
# Reading effects and observers

An effect is a literal, a conjunction, or `(when condition body)`, which guards the literals of its body. Observers are
read by the same rules and have one form more: `(forall (?v) rule)`, or `(forall (diff (?v) (agents)) rule)`, in which
the variable is marked wherever an agent is to stand.

Reading consumes what it reads: keywords are taken out of the tree, and the heads and bodies of `when` and `forall` with
them. What is left is part of the result, because a rule is read once for each variable of its quantifier.
-/
namespace Epistemic

/-- The words that build effects. -/
inductive Keyword where
  | and
  | when
  | forall
  | not
  deriving DecidableEq, Repr

/-- The keyword that a tree is. -/
def Keyword.of? (t : Tree) : Option Keyword :=
  if t.isWord "and" then some .and
  else if t.isWord "when" then some .when
  else if t.isWord "forall" then some .forall
  else if t.isWord "not" then some .not
  else none

/-- Where an effect stands: its name in messages, and whether its bodies are agents. -/
structure Place where
  text : String
  ofAgents : Bool

/-- What is around an effect: its guard, the agents left out, and whether its literals are recorded. -/
structure Scope where
  guard : Nat
  excluded : List Tree
  recorded : Bool

/-- What a tree was read as. -/
inductive Meaning where
  | literal (atom : Tree)
  | negated (atom : Tree)
  | conjunction (positive negative : List Tree)
  | conditional (body : Tree) (guard : Guard)
  | quantified

/-- The literals read so far, with the table of their guards. -/
structure Reading where
  guards : List Guard := []
  positive : List Entry := []
  negative : List Entry := []

namespace Reading

/-- Adds a guard to the table. -/
def addGuard (r : Reading) (g : Guard) : Reading × Nat :=
  ({ r with guards := r.guards ++ [g] }, r.guards.length)

/-- Records a positive literal, if the scope asks for it. -/
def addPositive (r : Reading) (s : Scope) (body : Tree) : Reading :=
  if s.recorded then { r with positive := r.positive ++ [⟨body, s.guard, s.excluded⟩] } else r

/-- Records a negative literal, if the scope asks for it. -/
def addNegative (r : Reading) (s : Scope) (body : Tree) : Reading :=
  if s.recorded then { r with negative := r.negative ++ [⟨body, s.guard, s.excluded⟩] } else r

/-- Records a rule so many times, each with a blank guard of its own. -/
def addCopies (s : Scope) (rule : Tree) : Nat → Reading → Reading
  | 0, r => r
  | n + 1, r =>
    let (r, guard) := r.addGuard .blank
    addCopies s rule n (r.addPositive { s with guard, excluded := blankConditions } rule)

/-- The positive and negative clauses. -/
def clauses (r : Reading) : List Clause × List Clause :=
  (r.positive.map (·.clause r.guards), r.negative.map (·.clause r.guards))

end Reading

/-- One tree read: what is known after it, what is left of it, and its meaning or what stopped the reading. -/
structure ReadTree where
  reading : Reading
  left : Tree
  outcome : Except Fault Meaning

/-- Several trees read in order. -/
structure ReadTrees where
  reading : Reading
  left : List Tree
  outcome : Except Fault (List Meaning)

/-- Reads trees in order, up to the first that stops. -/
def readEach (read : Tree → Reading → ReadTree) : List Tree → Reading → ReadTrees
  | [], r => ⟨r, [], .ok []⟩
  | t :: ts, r =>
    let first := read t r
    match first.outcome with
    | .error e => ⟨first.reading, first.left :: ts, .error e⟩
    | .ok m =>
      let rest := readEach read ts first.reading
      ⟨rest.reading, first.left :: rest.left, rest.outcome.map (m :: ·)⟩

/-- The conditions that a conjunction states: its literals by sign. What has no sign of its own counts as negative. -/
def conjoin : List Meaning → List Tree × List Tree
  | [] => ([], [])
  | m :: ms =>
    let (positive, negative) := conjoin ms
    match m with
    | .literal atom => (atom :: positive, negative)
    | .negated atom => (positive, atom :: negative)
    | .conjunction p _ => (positive, .list p :: negative)
    | .conditional body _ => (positive, body :: negative)
    | .quantified => (positive, negative)

/-- Whether a variable stands in a rule: as a part of a word, or as an item of a list. -/
def standsIn (v : Tree) : Tree → Except Fault Bool
  | .list xs => .ok (xs.contains v)
  | .word w =>
    match v with
    | .word s => .ok (Text.occurs s.toList w.toList)
    | .list _ => .error .listForName

/-- A variable marked as quantified. -/
def marked (v : String) : String := "FASTART" ++ v ++ "FASTOP"

/-- Marks the first place where a variable stands in a rule. -/
def markFirst (v rule : Tree) : Except Fault Tree :=
  match v, rule with
  | .list _, _ => .error .listForName
  | .word _, .word _ => .error .fixedWord
  | .word s, .list xs => .ok (.list (xs.set (xs.idxOf v) (.word (marked s))))

/-- Marks the first place where a variable stands in a rule, if it stands there. -/
def markIfIn (v rule : Tree) : Except Fault Tree :=
  match standsIn v rule with
  | .error e => .error e
  | .ok false => .ok rule
  | .ok true => markFirst v rule

/-- Marks a variable in each condition of a list. -/
def markEach (v : Tree) : List Tree → Except Fault (List Tree)
  | [] => .ok []
  | c :: cs =>
    match markIfIn v c with
    | .error e => .error e
    | .ok c => (markEach v cs).map (c :: ·)

/-- The head of an effect, and whether it is one of the words that an effect is built of. -/
def headKeyword? (t : Tree) : Except Fault (Option Keyword) :=
  match t.items with
  | [] => .error .missingItem
  | head :: _ => .ok (Keyword.of? head)

/-- Reads the condition of a `when` as a guard. -/
def readCondition (place : Place) (read : Scope → Tree → Reading → ReadTree) (condition : Tree) (r : Reading) :
    Except Fault Guard :=
  match headKeyword? condition with
  | .error e => .error e
  | .ok (some .when) | .ok (some .forall) => .error (.refused (.keywordInCondition place.text))
  | .ok (some .and) =>
    match (read ⟨0, blankConditions, false⟩ condition r).outcome with
    | .ok (.conjunction positive negative) => .ok ⟨positive, negative⟩
    | .ok _ => .ok .blank
    | .error e => .error e
  | .ok (some .not) => .ok ⟨blankConditions, condition.items.drop 1⟩
  | .ok none => .ok ⟨[condition], blankConditions⟩

/-- Reads what stands behind `when`. -/
def readWhen (place : Place) (read : Scope → Tree → Reading → ReadTree) (s : Scope) (parts : List Tree)
    (r : Reading) : ReadTree :=
  match parts with
  | [] => ⟨r, .list [], .error .missingItem⟩
  | condition :: parts =>
    match readCondition place read condition r with
    | .error e => ⟨r, .list parts, .error e⟩
    | .ok guard =>
      match parts with
      | [] => ⟨r, .list [], .error .missingItem⟩
      | body :: parts =>
        match headKeyword? body with
        | .error e => ⟨r, .list parts, .error e⟩
        | .ok (some .when) | .ok (some .forall) =>
          ⟨r, .list parts, .error (.refused (.keywordInBody place.text))⟩
        | .ok _ =>
          let (r, place) := r.addGuard guard
          let done := read { s with guard := place } body r
          ⟨done.reading, .list parts, done.outcome.map fun _ => .conditional done.left guard⟩

/-- The variables of a quantifier and the agents it leaves out. -/
def quantifierHead (place : Place) (s : Scope) (head : Tree) : Except Fault (Tree × List Tree) := do
  let first ← (head.item? 0).elim (.error .missingItem) .ok
  let (vars, excluded) ←
    if first.isWord "diff" then
      match head.items.drop 1 with
      | [vars, agents] => .ok (vars, [agents])
      | _ => .error (.refused .difference)
    else .ok (head, s.excluded)
  match ← headKeyword? vars with
  | some _ => .error (.refused (.keywordInQuantifier place.text))
  | none => .ok (vars, excluded)

/-- Reads a rule once for each variable of its quantifier. A variable that stands in the rule itself is marked there;
`copies` counts how often the rule has been met as a list of agents, which are recorded when all marks are set. In a
rule that begins with `when`, the variable is marked in its body and in its conditions. -/
def readForEach (read : Scope → Tree → Reading → ReadTree) (s : Scope) :
    (vars : List Tree) → (rule : Tree) → (copies : Nat) → Reading → Reading × Except Fault Unit
  | [], rule, copies, r => (r.addCopies s rule copies, .ok ())
  | v :: vs, rule, copies, r =>
    if v.mentions "?" then
      match standsIn v rule with
      | .error e => (r.addCopies s rule copies, .error e)
      | .ok true =>
        match markFirst v rule with
        | .error e => (r.addCopies s rule copies, .error e)
        | .ok rule =>
          match headKeyword? rule with
          | .ok none => readForEach read s vs rule (copies + 1) r
          | _ =>
            let (r, guard) := r.addGuard .blank
            let done := read { s with guard, excluded := blankConditions } rule r
            match done.outcome with
            | .error e => (done.reading, .error e)
            | .ok _ => readForEach read s vs done.left copies done.reading
      | .ok false =>
        match headKeyword? rule with
        | .error e => (r.addCopies s rule copies, .error e)
        | .ok (some .when) =>
          let parsed := read ⟨0, blankConditions, false⟩ rule r
          match parsed.outcome with
          | .error e => (r, .error e)
          | .ok (.conditional body guard) =>
            let inEach : Except Fault (Tree × Guard) := do
              let body ← markIfIn v body
              let positive ← markEach v guard.positive
              let negative ← markEach v guard.negative
              return (body, ⟨positive, negative⟩)
            match inEach with
            | .error e => (r, .error e)
            | .ok (body, guard) =>
              let (r, place) := r.addGuard guard
              let done := read { s with guard := place } body r
              match done.outcome with
              | .error e => (done.reading, .error e)
              | .ok _ => readForEach read s vs parsed.left copies done.reading
          | .ok _ => readForEach read s vs parsed.left copies r
        | .ok _ => (r.addCopies s rule copies, .error (.refused .nesting))
    else readForEach read s vs rule copies r

/-- Reads what stands behind `forall`. -/
def readForall (place : Place) (read : Scope → Tree → Reading → ReadTree) (s : Scope) (parts : List Tree)
    (r : Reading) : ReadTree :=
  match parts with
  | [] => ⟨r, .list [], .error .missingItem⟩
  | head :: parts =>
    match quantifierHead place s head with
    | .error e => ⟨r, .list parts, .error e⟩
    | .ok (vars, excluded) =>
      match parts with
      | [] => ⟨r, .list [], .error .missingItem⟩
      | rule :: parts =>
        let (r, outcome) := readForEach read { s with excluded } vars.items rule 0 r
        ⟨r, .list parts, outcome.map fun _ => .quantified⟩

/-- Reads an effect whose lists are nested less than `fuel` deep. -/
def readWithin (place : Place) : (fuel : Nat) → Scope → Tree → Reading → ReadTree
  | 0, _, t, r => ⟨r, t, .error .missingItem⟩
  | _ + 1, _, .word w, r => ⟨r, .word w, .error (.refused (.notAList place.text))⟩
  | _ + 1, _, .list [], r => ⟨r, .list [], .error .missingItem⟩
  | fuel + 1, s, .list (head :: parts), r =>
    match Keyword.of? head with
    | some .and =>
      let all := readEach (readWithin place fuel s) parts r
      ⟨all.reading, .list all.left, all.outcome.map fun ms => .conjunction (conjoin ms).1 (conjoin ms).2⟩
    | some .when => readWhen place (readWithin place fuel) s parts r
    | some .forall =>
      if place.ofAgents then readForall place (readWithin place fuel) s parts r
      else ⟨r, .list (head :: parts), .error (.refused .quantifier)⟩
    | some .not =>
      match parts with
      | [atom] => ⟨r.addNegative s atom, .list (head :: parts), .ok (.negated atom)⟩
      | _ => ⟨r, .list (head :: parts), .error (.refused (.negation place.text))⟩
    | none => ⟨r.addPositive s (.list (head :: parts)), .list (head :: parts), .ok (.literal (.list (head :: parts)))⟩

/-- Reads an effect. Every step goes into a list, so the depth of the tree bounds the reading. -/
def readEffect (place : Place) (s : Scope) (t : Tree) (r : Reading) : ReadTree :=
  readWithin place (t.depth + 1) s t r

/-- Reads an effect that nothing guards, with a blank guard of its own. -/
def readClause (place : Place) (t : Tree) (r : Reading) : ReadTree :=
  let (r, guard) := r.addGuard .blank
  readEffect place ⟨guard, blankConditions, true⟩ t r

end Epistemic
