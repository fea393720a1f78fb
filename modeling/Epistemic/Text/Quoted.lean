import Epistemic.Text.PrintableTable
/-!
# Quoted words

How a word stands inside a shown list: between single quotes, or between double quotes when it has single ones and no
double ones. Backslash, the chosen quote and characters without a printed form are escaped.
-/
namespace Epistemic.Text

/-- Whether a character is shown as it is. -/
def isPrintable (c : Char) : Bool :=
  if c.toNat < 128 then 0x20 ≤ c.toNat && c.toNat < 0x7F else !inSpans unprintableSpans c

/-- The last `width` hexadecimal digits of a number, in lower case. -/
def hexDigits : (width : Nat) → Nat → List Char
  | 0, _ => []
  | width + 1, n => hexDigits width (n / 16) ++ [Nat.digitChar (n % 16)]

/-- A character shown by its number: two, four or eight digits. -/
def numbered (c : Char) : List Char :=
  if c.toNat < 0x100 then '\\' :: 'x' :: hexDigits 2 c.toNat
  else if c.toNat < 0x10000 then '\\' :: 'u' :: hexDigits 4 c.toNat
  else '\\' :: 'U' :: hexDigits 8 c.toNat

/-- One character of a word between two marks `quote`. -/
def quotedChar (quote c : Char) : List Char :=
  if c == quote || c == '\\' then ['\\', c]
  else if c == '\t' then ['\\', 't']
  else if c == '\n' then ['\\', 'n']
  else if c == '\r' then ['\\', 'r']
  else if isPrintable c then [c]
  else numbered c

/-- The mark that a word is quoted with. -/
def quoteMark (cs : List Char) : Char :=
  if cs.contains '\'' && !cs.contains '"' then '"' else '\''

/-- A word as it stands inside a shown list. -/
def quoted (s : String) : String :=
  let cs := s.toList
  let quote := quoteMark cs
  String.ofList (quote :: cs.flatMap (quotedChar quote) ++ [quote])

end Epistemic.Text
