/-!
# Spans of code points

The tables of the character standard are lists of closed intervals.
-/
namespace Epistemic.Text

/-- The code points from `first` to `last`, both included. -/
structure Span where
  first : Nat
  last : Nat

/-- Whether a code point lies in the span. -/
def Span.contains (s : Span) (n : Nat) : Bool := s.first ≤ n && n ≤ s.last

/-- Whether the character lies in one of the spans. -/
def inSpans (spans : List Span) (c : Char) : Bool := spans.any (·.contains c.toNat)

end Epistemic.Text
