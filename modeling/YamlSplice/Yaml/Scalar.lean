/-
  YamlSplice.Yaml.Scalar — the value of a scalar by its type.

  A scalar that is typed by its form may still have no value: the thirtieth of February has the
  form of a date. A scalar that is typed by a tag may have any text.
-/

import YamlSplice.Yaml.Tag
import YamlSplice.Yaml.Fault
import YamlSplice.Decimal.Numeral
import YamlSplice.Text.Base64
import YamlSplice.Value.Basic

namespace YamlSplice.Yaml.Scalar

/-- A value of its own, or the fault of the scalar. -/
def orFault {α : Type} (fault : ScalarFault) : Option α → Except Fault α
  | some a => .ok a
  | none => .error (.scalar fault)

/-- The words for truth values, in small letters. -/
def boolValues : List (Text × Bool) :=
  [("yes".toList, true), ("no".toList, false), ("true".toList, true), ("false".toList, false),
    ("on".toList, true), ("off".toList, false)]

/-- A truth value by its word, in any case of letters. -/
def bool (text : Text) : Except Fault Value :=
  let word := Text.lowerAscii text
  orFault .unknownWord ((boolValues.find? (·.1 == word)).map fun entry => .bool entry.2)

/-- The text without underscores. -/
def dropBars (text : Text) : Text := text.filter (· != '_')

/-! ## Numbers -/

/-- The value of places to base sixty, the highest first. -/
def sixtieths (places : List Int) : Int := places.foldl (fun n place => n * 60 + place) 0

/-- An integer without its sign: to base two or sixteen behind a mark, to base eight behind a zero,
    to base sixty with colons, decimal otherwise. -/
def magnitude (text : Text) : Except Fault Int :=
  match text with
  | [] => .error (.scalar .noDigits)
  | ['0'] => .ok 0
  | '0' :: 'b' :: rest => orFault .noValue (Decimal.integer? 2 rest)
  | '0' :: 'x' :: rest => orFault .noValue (Decimal.integer? 16 rest)
  | '0' :: _ => orFault .noValue (Decimal.integer? 8 text)
  | _ =>
    if text.contains ':' then do
      let places ← (Text.pieces ':' text).mapM fun piece => orFault .noValue (Decimal.integer? 10 piece)
      return sixtieths places
    else orFault .noValue (Decimal.integer? 10 text)

/-- An integer, a sign in front and underscores anywhere. -/
def int (text : Text) : Except Fault Value := do
  let (negative, rest) := Decimal.splitSign (dropBars text)
  let n ← magnitude rest
  return .int (if negative then -n else n)

/-- The sum of places to base sixty, the lowest first, each weighted by `weight` and its powers. A
    weight that is no floating-point number is too large. -/
def weighted : Nat → Float → List Float → Except Fault Float
  | _, sum, [] => .ok sum
  | weight, sum, place :: rest =>
    let factor := Decimal.scaledFloat weight 0
    if factor == Decimal.infinity then .error (.scalar .tooLarge)
    else weighted (weight * 60) (sum + place * factor) rest

/-- A floating-point number: by a word with a point, to base sixty with colons, decimal otherwise. -/
def float (text : Text) : Except Fault Value := do
  let (negative, rest) := Decimal.splitSign (Text.lowerAscii (dropBars text))
  if (dropBars text).isEmpty then throw (.scalar .noDigits)
  if rest = ".nan".toList then return .float Decimal.notANumber
  let x ←
    if rest = ".inf".toList then pure Decimal.infinity
    else if rest.contains ':' then do
      let places ← (Text.pieces ':' rest).mapM fun piece => orFault .noValue (Decimal.float? piece)
      weighted 1 0.0 places.reverse
    else orFault .noValue (Decimal.float? rest)
  return .float (if negative then -x else x)

/-- The number that is not a number, by its word. Two keys of this form are one key. -/
def isNotANumber (text : Text) : Bool :=
  (Decimal.splitSign (Text.lowerAscii (dropBars text))).2 == ".nan".toList

/-! ## Dates, bytes, and all scalars -/

/-- Six digits of a fraction of a second as microseconds. -/
def microseconds (fraction : Text) : Nat :=
  let digits := fraction.take 6
  Form.number (digits ++ List.replicate (6 - digits.length) '0')

/-- A date, or a moment if there is a time. -/
def moment (text : Text) : Except Fault Value :=
  match Form.moment? (dropFinalNewline text) with
  | none => .error (.scalar .notMoment)
  | some m => do
    let date ← orFault .noValue (Date.ofParts? m.year m.month m.day)
    match m.time with
    | none => return .date date
    | some (hour, minute, second) =>
      let t ← orFault .noValue
        (DateTime.ofParts? date hour minute second (microseconds m.fraction) m.offset)
      return .moment t

/-- Bytes, given in letters. -/
def binary (text : Text) : Except Fault Value :=
  if text.all (·.toNat < 0x80) then
    match Text.Base64.decode? text with
    | some content => .ok (.bytes content)
    | none => .error .malformed
  else .error .malformed

/-- The value of a scalar; only the tags of scalars give one. -/
def value (tag : Tag) (text : Text) : Except Fault Value :=
  match tag with
  | .null => .ok .null
  | .bool => bool text
  | .int => int text
  | .float => float text
  | .timestamp => moment text
  | .binary => binary text
  | .str => .ok (.str text)
  | _ => .error .malformed

end YamlSplice.Yaml.Scalar
