/-
  YamlSplice.Decimal.Numeral — numbers read from text.

  A numeral may have spacing around it, digits of any script, one sign, and single underscores
  between digits. An integer may carry the mark of its base behind the sign; a floating-point
  number may also be one of the words inf, infinity and nan in any case.
-/

import YamlSplice.Text.Blank
import YamlSplice.Text.Digit
import YamlSplice.Decimal.Nearest

namespace YamlSplice.Decimal

/-- Positive infinity. -/
def infinity : Float := Float.ofBits (UInt64.ofNat infinityBits)

/-- Not a number. -/
def notANumber : Float := Float.ofBits 0x7FF8000000000000

/-- Spacing at the ends removed, and digits of other scripts replaced by ASCII digits. -/
def plainNumeral (text : Text) : Text :=
  let trimmed := ((text.dropWhile Text.isSpacing).reverse.dropWhile Text.isSpacing).reverse
  trimmed.map fun c =>
    if c.toNat < 0x80 then c
    else
      match Text.digit? c with
      | some d => Char.ofNat (48 + d)
      | none => c

/-- A sign, if there is one, and what follows it: `true` stands for minus. -/
def splitSign : Text → Bool × Text
  | '-' :: rest => (true, rest)
  | '+' :: rest => (false, rest)
  | rest => (false, rest)

/-- The value of an ASCII digit or letter in bases up to 36. -/
def digitValue? (c : Char) : Option Nat :=
  if '0' ≤ c && c ≤ '9' then some (c.toNat - 48)
  else if 'a' ≤ c && c ≤ 'z' then some (c.toNat - 87)
  else if 'A' ≤ c && c ≤ 'Z' then some (c.toNat - 55)
  else none

/-- The digits of a natural number in a base, read on from the value `acc`; an underscore has to
    stand between two digits. -/
def naturalFrom? (base acc : Nat) : Text → Option Nat
  | [] => some acc
  | c :: rest =>
    match rest with
    | d :: more =>
      if c = '_' then
        match digitValue? d with
        | some v => if v < base then naturalFrom? base (acc * base + v) more else none
        | none => none
      else
        match digitValue? c with
        | some v => if v < base then naturalFrom? base (acc * base + v) (d :: more) else none
        | none => none
    | [] =>
      match digitValue? c with
      | some v => if v < base then some (acc * base + v) else none
      | none => none

/-- A natural number in a base: at least one digit, the first character a digit. -/
def natural? (base : Nat) : Text → Option Nat
  | [] => none
  | c :: rest =>
    match digitValue? c with
    | some v => if v < base then naturalFrom? base v rest else none
    | none => none

/-- The letter that marks a base behind a zero. -/
def baseMark? : Nat → Option Char
  | 2 => some 'b'
  | 8 => some 'o'
  | 16 => some 'x'
  | _ => none

/-- What follows the mark of the base, or the whole text; an underscore may follow the mark. -/
def dropBaseMark (base : Nat) (text : Text) : Text :=
  match text with
  | '0' :: mark :: rest =>
    if baseMark? base = some mark.toLower then
      match rest with
      | '_' :: more => more
      | _ => rest
    else text
  | _ => text

/-- An integer in a base. -/
def integer? (base : Nat) (text : Text) : Option Int :=
  let (negative, rest) := splitSign (plainNumeral text)
  (natural? base (dropBaseMark base rest)).map fun n => if negative then -(n : Int) else n

/-- A run of digits with single underscores between them: the value on from `acc`, the number of
    digits, and the rest. -/
def digitRun (acc count : Nat) : Text → Nat × Nat × Text
  | [] => (acc, count, [])
  | c :: rest =>
    if c.isDigit then digitRun (acc * 10 + (c.toNat - 48)) (count + 1) rest
    else
      match c, rest with
      | '_', d :: _ => if count ≠ 0 && d.isDigit then digitRun acc count rest else (acc, count, c :: rest)
      | _, _ => (acc, count, c :: rest)

/-- The exponent part of a numeral, which ends it: zero if there is none. -/
def exponent? : Text → Option Int
  | [] => some 0
  | c :: rest =>
    if c = 'e' || c = 'E' then
      let (negative, digits) := splitSign rest
      match digitRun 0 0 digits with
      | (n, count, []) => if count = 0 then none else some (if negative then -(n : Int) else n)
      | _ => none
    else none

/-- An unsigned numeral with digits before or after the point. -/
def unsignedFloat? (text : Text) : Option Float :=
  let (whole, wholeCount, rest) := digitRun 0 0 text
  match rest with
  | '.' :: rest =>
    let (fraction, fractionCount, rest) := digitRun 0 0 rest
    if wholeCount + fractionCount = 0 then none
    else (exponent? rest).map fun e =>
      scaledFloat (whole * Nat.pow 10 fractionCount + fraction) (e - fractionCount)
  | _ => if wholeCount = 0 then none else (exponent? rest).map (scaledFloat whole)

/-- A floating-point number. -/
def float? (text : Text) : Option Float :=
  let (negative, rest) := splitSign (plainNumeral text)
  let magnitude :=
    let word := Text.lowerAscii rest
    if word = "inf".toList || word = "infinity".toList then some infinity
    else if word = "nan".toList then some notANumber
    else unsignedFloat? rest
  magnitude.map fun x => if negative then -x else x

end YamlSplice.Decimal
