import Epistemic.Text.NameTable
/-!
# Names

A name is a letter or an underscore, followed by letters, digits, underscores and the marks that belong to letters.
-/
namespace Epistemic.Text

/-- Whether a name may begin with the character. -/
def beginsName (c : Char) : Bool :=
  if c.toNat < 128 then c.isAlpha || c == '_' else inSpans nameStartSpans c

/-- Whether the character may stand in a name. -/
def standsInName (c : Char) : Bool :=
  beginsName c || if c.toNat < 128 then c.isDigit else inSpans nameRestSpans c

/-- Whether a text is a name. -/
def isName : List Char → Bool
  | [] => false
  | c :: cs => beginsName c && cs.all standsInName

end Epistemic.Text
