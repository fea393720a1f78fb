/-!
# Replacement by rules

A rule looks at the front of a text. One pass applies it from left to right, at each place where it matches and not
inside what it has just written; passes are repeated until one finds nothing.
-/
namespace Epistemic.Source

/-- What the front of a text is replaced by, and the text that follows the part it matched. -/
abbrev Rule := List Char → Option (List Char × List Char)

/-- One pass of a rule after passing over `skip` characters, with the number of replacements. -/
def passFrom (rule : Rule) : (skip : Nat) → List Char → List Char × Nat
  | _, [] => ([], 0)
  | skip + 1, _ :: cs => passFrom rule skip cs
  | 0, c :: cs =>
    match rule (c :: cs) with
    | some (new, rest) =>
      let (after, n) := passFrom rule (cs.length - rest.length) cs
      (new ++ after, n + 1)
    | none =>
      let (after, n) := passFrom rule 0 cs
      (c :: after, n)

/-- One pass of a rule, with the number of replacements. -/
def pass (rule : Rule) (cs : List Char) : List Char × Nat := passFrom rule 0 cs

/-- Passes of a rule until one replaces nothing, at most `fuel` of them. -/
def exhaustWithin (rule : Rule) : (fuel : Nat) → List Char → List Char
  | 0, cs => cs
  | fuel + 1, cs =>
    match pass rule cs with
    | (new, 0) => new
    | (new, _ + 1) => exhaustWithin rule fuel new

/-- Passes of a rule until one replaces nothing. Each replacement takes a parenthesis away, so that their number bounds
that of the passes. -/
def exhaust (rule : Rule) (cs : List Char) : List Char := exhaustWithin rule (cs.count '(' + 1) cs

end Epistemic.Source
