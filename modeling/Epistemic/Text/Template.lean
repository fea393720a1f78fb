import Epistemic.Text.Name
import Epistemic.Text.Numeral
/-!
# Replacement templates

A replacement text in which a backslash is an escape: some letters stand for control characters, octal digits for a
character, and a group reference for the text that is replaced. The replaced text is the only group, so references to
group zero and to group one mean the same and all others are refused.
-/
namespace Epistemic.Text

/-- A piece of a template: a character, or the text that is replaced. -/
inductive TemplatePart where
  | char (c : Char)
  | matched
  deriving DecidableEq, Repr

/-- Why a template is refused. -/
inductive TemplateFault where
  /-- An escape that means nothing, or a reference to a group that does not exist. -/
  | malformed
  /-- A reference by a name, of which there are none. -/
  | unknownName
  deriving DecidableEq, Repr

/-- The value of an octal digit. -/
def octalValue? (c : Char) : Option Nat :=
  if '0' ≤ c && c ≤ '7' then some (c.toNat - 0x30) else none

/-- The value of a common decimal digit. -/
def asciiDigitValue? (c : Char) : Option Nat :=
  if c.isDigit then some (c.toNat - 0x30) else none

/-- What an escape letter stands for, if it is one that stands for a character. -/
def escapedChar? (c : Char) : Option Char :=
  if c == 'a' then some '\x07' else if c == 'b' then some '\x08' else if c == 'f' then some '\x0c'
  else if c == 'n' then some '\n' else if c == 'r' then some '\r' else if c == 't' then some '\t'
  else if c == 'v' then some '\x0b' else if c == '\\' then some '\\' else none

/-- The part that a reference to group number `n` is. -/
def groupPart (n : Nat) : Except TemplateFault TemplatePart :=
  if n ≤ 1 then .ok .matched else .error .malformed

/-- The group that stands between the angle brackets of a reference. -/
def namedGroup (name : List Char) : Except TemplateFault TemplatePart :=
  if isName name then .error .unknownName
  else match readInteger? (String.ofList name) with
    | some (.ofNat n) => groupPart n
    | _ => .error .malformed

/-- What a template is made of: characters, backslashes with the character behind them, and a backslash at the end. -/
inductive TemplateUnit where
  | plain (c : Char)
  | escape (c : Char)
  | loose
  deriving DecidableEq, Repr

/-- Cuts a template into units. -/
def templateUnits : List Char → List TemplateUnit
  | [] => []
  | ['\\'] => [.loose]
  | '\\' :: c :: cs => .escape c :: templateUnits cs
  | c :: cs => .plain c :: templateUnits cs

/-- The characters of a unit. -/
def TemplateUnit.chars : TemplateUnit → List Char
  | plain c => [c]
  | escape c => ['\\', c]
  | loose => ['\\']

/-- The octal digit that a unit is. -/
def TemplateUnit.octal? : TemplateUnit → Option Nat
  | plain c => octalValue? c
  | _ => none

/-- The decimal digit that a unit is. -/
def TemplateUnit.digit? : TemplateUnit → Option Nat
  | plain c => asciiDigitValue? c
  | _ => none

/-- A reference by what stands in angle brackets, given the units behind the opening one: the part and the number of
units it took. A loose backslash right behind the closing bracket is noticed before the reference is looked up. -/
def angledGroup (us : List TemplateUnit) : Except TemplateFault (List TemplatePart × Nat) :=
  let name := us.takeWhile (· != .plain '>')
  match us.drop name.length with
  | [] | [_, .loose] => .error .malformed
  | _ :: _ =>
    if name.isEmpty then .error .malformed
    else (namedGroup (name.flatMap TemplateUnit.chars)).map fun p => ([p], name.length + 2)

/-- A reference by number or an octal escape that begins with the digit `c`, whose value is `d`: the part and the number
of units behind the digit that it took. -/
def numbered? (c : Char) (d : Nat) (us : List TemplateUnit) : Except TemplateFault (List TemplatePart × Nat) :=
  match us.head?.bind TemplateUnit.digit? with
  | none => (groupPart d).map fun p => ([p], 0)
  | some d' =>
    match octalValue? c, us.head?.bind TemplateUnit.octal?, us.tail.head?.bind TemplateUnit.octal? with
    | some o, some o', some o'' =>
      let v := (o * 8 + o') * 8 + o''
      if v ≤ 255 then .ok ([.char (Char.ofNat v)], 2) else .error .malformed
    | _, _, _ => (groupPart (d * 10 + d')).map fun p => ([p], 1)

/-- One escape, given the character behind its backslash and the units that follow: the parts and the number of those
units that they took. -/
def escapeParts (c : Char) (us : List TemplateUnit) : Except TemplateFault (List TemplatePart × Nat) :=
  if c == 'g' then
    match us with
    | .plain '<' :: us => angledGroup us
    | _ => .error .malformed
  else if c == '0' then
    let digits := ((us.take 2).takeWhile (·.octal?.isSome)).filterMap TemplateUnit.octal?
    .ok ([.char (Char.ofNat (digits.foldl (fun v d => v * 8 + d) 0))], digits.length)
  else
    match asciiDigitValue? c with
    | some d => numbered? c d us
    | none =>
      match escapedChar? c with
      | some e => .ok ([.char e], 0)
      | none => if c.isAlpha then .error .malformed else .ok ([.char '\\', .char c], 0)

/-- Reads a template, after passing over `skip` units. -/
def templateFrom : (skip : Nat) → List TemplateUnit → Except TemplateFault (List TemplatePart)
  | _, [] => .ok []
  | skip + 1, _ :: us => templateFrom skip us
  | 0, .plain c :: us => (templateFrom 0 us).map (.char c :: ·)
  | 0, .loose :: _ => .error .malformed
  | 0, .escape c :: us => do
    let (parts, taken) ← escapeParts c us
    let rest ← templateFrom taken us
    return parts ++ rest

/-- Reads a template. -/
def template (cs : List Char) : Except TemplateFault (List TemplatePart) := templateFrom 0 (templateUnits cs)

/-- The text that a template gives in place of `old`. -/
def fillIn (parts : List TemplatePart) (old : List Char) : List Char :=
  parts.flatMap fun
    | .char c => [c]
    | .matched => old

end Epistemic.Text
