import Epistemic.Text.CaseTable
/-!
# Lower case

Lower-casing of whole texts. Each character goes to its lower-case form, with two rules beyond the table: the capital
I with a dot becomes an i followed by a combining dot, and a capital sigma that ends a word becomes the final sigma.
-/
namespace Epistemic.Text

/-- Whether a character has case, and so makes a neighbouring sigma part of a word. -/
def isCased (c : Char) : Bool :=
  if c.toNat < 128 then c.isAlpha else inSpans casedSpans c

/-- Whether a character is passed over when a sigma looks for its neighbours. -/
def isCaseless (c : Char) : Bool :=
  if c.toNat < 128 then c == '\'' || c == '.' || c == ':' || c == '^' || c.toNat == 0x60
  else inSpans caselessSpans c

/-- The row speaks of the code point. -/
def CaseRow.covers (r : CaseRow) (n : Nat) : Bool :=
  r.first ≤ n && n ≤ r.last && (n - r.first) % r.stride == 0

/-- The lower-case form of one character, taken by itself. -/
def lowerChar (c : Char) : List Char :=
  if c.toNat < 128 then [c.toLower]
  else if c.toNat == 0x130 then ['i', Char.ofNat 0x307]
  else match caseRows.find? (·.covers c.toNat) with
    | some r => [Char.ofNat (c.toNat + r.offset).toNat]
    | none => [c]

/-- Whether the text goes on, after caseless characters, with a character that has case. -/
def wordGoesOn : List Char → Bool
  | [] => false
  | c :: cs => if isCaseless c then wordGoesOn cs else isCased c

/-- Lower-cases a text of which `inWord` says whether a cased character came last before it, caseless ones apart. -/
def lowerFrom : Bool → List Char → List Char
  | _, [] => []
  | inWord, c :: cs =>
    (if c == 'Σ' then [if inWord && !wordGoesOn cs then 'ς' else 'σ'] else lowerChar c) ++
      lowerFrom (if isCaseless c then inWord else isCased c) cs

/-- The text in lower case. -/
def lower (cs : List Char) : List Char := lowerFrom false cs

end Epistemic.Text
