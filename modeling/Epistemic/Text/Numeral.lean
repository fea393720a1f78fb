import Epistemic.Text.Blank
/-!
# Numerals

Whole numbers: an optional sign and decimal digits of any script, with single underscores between digits and white space
around all. A numeral has at most 4300 digits.
-/
namespace Epistemic.Text

/-- The zero digits of the scripts other than the common one; the digits one to nine follow each. -/
def zeroDigits : List Nat := [
  0x660, 0x6F0, 0x7C0, 0x966, 0x9E6, 0xA66, 0xAE6, 0xB66, 0xBE6, 0xC66, 0xCE6, 0xD66, 0xDE6, 0xE50,
  0xED0, 0xF20, 0x1040, 0x1090, 0x17E0, 0x1810, 0x1946, 0x19D0, 0x1A80, 0x1A90, 0x1B50, 0x1BB0,
  0x1C40, 0x1C50, 0xA620, 0xA8D0, 0xA900, 0xA9D0, 0xA9F0, 0xAA50, 0xABF0, 0xFF10, 0x104A0, 0x10D30,
  0x11066, 0x110F0, 0x11136, 0x111D0, 0x112F0, 0x11450, 0x114D0, 0x11650, 0x116C0, 0x11730,
  0x118E0, 0x11950, 0x11C50, 0x11D50, 0x11DA0, 0x16A60, 0x16AC0, 0x16B50, 0x1D7CE, 0x1D7D8,
  0x1D7E2, 0x1D7EC, 0x1D7F6, 0x1E140, 0x1E2F0, 0x1E950, 0x1FBF0]

/-- The value of a decimal digit. -/
def digitValue? (c : Char) : Option Nat :=
  let n := c.toNat
  match (0x30 :: zeroDigits).find? (fun z => z ≤ n && n < z + 10) with
  | some z => some (n - z)
  | none => none

/-- Reads digits after at least one digit, of which `value` is the number so far. -/
def readDigits (value : Nat) : List Char → Option Nat
  | [] => some value
  | '_' :: c :: cs => (digitValue? c).bind fun d => readDigits (value * 10 + d) cs
  | c :: cs => (digitValue? c).bind fun d => readDigits (value * 10 + d) cs

/-- Reads an unsigned numeral. -/
def readNatural? : List Char → Option Nat
  | [] => none
  | c :: cs => (digitValue? c).bind fun d => readDigits d cs

/-- Whether a character may stand around a numeral: white space other than the information separators. -/
def padsNumeral (c : Char) : Bool := isBlank c && !(0x1C ≤ c.toNat && c.toNat ≤ 0x1F)

/-- The text without what may stand around a numeral. -/
def unpadded (cs : List Char) : List Char :=
  ((cs.dropWhile padsNumeral).reverse.dropWhile padsNumeral).reverse

/-- How many digits a numeral may have. -/
def digitLimit : Nat := 4300

/-- Reads a numeral with its sign. -/
def readSigned? : List Char → Option Int
  | '-' :: cs => (readNatural? cs).map fun n => -(n : Int)
  | '+' :: cs => (readNatural? cs).map Int.ofNat
  | cs => (readNatural? cs).map Int.ofNat

/-- Reads a numeral. -/
def readInteger? (s : String) : Option Int :=
  let cs := unpadded s.toList
  if cs.countP (fun c => (digitValue? c).isSome) ≤ digitLimit then readSigned? cs else none

end Epistemic.Text
