import Epistemic.Text.Span
/-!
# White space

What separates words: the blanks of the character standard together with the four information separators
U+001C to U+001F.
-/
namespace Epistemic.Text

/-- The white space characters. -/
def blankSpans : List Span := [
  ⟨0x9, 0xD⟩, ⟨0x1C, 0x20⟩, ⟨0x85, 0x85⟩, ⟨0xA0, 0xA0⟩, ⟨0x1680, 0x1680⟩, ⟨0x2000, 0x200A⟩,
  ⟨0x2028, 0x2029⟩, ⟨0x202F, 0x202F⟩, ⟨0x205F, 0x205F⟩, ⟨0x3000, 0x3000⟩]

/-- Whether a character is white space. -/
def isBlank (c : Char) : Bool := inSpans blankSpans c

end Epistemic.Text
