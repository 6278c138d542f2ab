/-
  YamlSplice.Json.Decode — JSON documents as values.

  Objects become mappings: the first place and the last value of a name count. Numbers with a
  point or an exponent become floats, the others integers; the words NaN, Infinity and -Infinity
  are numbers too. A step that fails says how many characters of the text are left at the fault,
  from which `decode` computes the offset. Every nested step starts behind at least one character,
  so the length of the text bounds the nesting.
-/

import YamlSplice.Json.Fault
import YamlSplice.Value.Equality
import YamlSplice.Decimal.Numeral

namespace YamlSplice.Json

/-- A cause, and how many characters of the text are left where it shows. -/
structure Stop where
  cause : Cause
  left : Nat
  deriving DecidableEq, Repr

/-- A step takes a part off the start of a text and leaves the text after it. -/
abbrev Step := Except Stop

/-- A fault at the start of `rest`. -/
def stop {α : Type} (cause : Cause) (rest : Text) : Step α := .error ⟨cause, rest.length⟩

/-- White space between the parts of a document. -/
def isSpace (c : Char) : Bool := c == ' ' || c == '\t' || c == '\n' || c == '\r'

def skipSpace (text : Text) : Text := text.dropWhile isSpace

/-! ## Strings -/

/-- The character of an escape with one letter. -/
def escape? : Char → Option Char
  | '"' => some '"'
  | '\\' => some '\\'
  | '/' => some '/'
  | 'b' => some '\x08'
  | 'f' => some '\x0c'
  | 'n' => some '\n'
  | 'r' => some '\r'
  | 't' => some '\t'
  | _ => none

/-- The value of hexadecimal digits. -/
def hexValue? (digits : Text) : Option Nat :=
  digits.foldlM (fun n c => ((Decimal.digitValue? c).filter (· < 16)).map (n * 16 + ·)) 0

/-- The code of an escape whose letter u is the first character of `text`. Its four digits must not
    end the text. -/
def codeUnit (text : Text) : Step (Nat × Text) :=
  let digits := text.drop 1
  if digits.length ≤ 4 then stop .badCodeEscape text
  else
    match hexValue? (digits.take 4) with
    | some n => .ok (n, digits.drop 4)
    | none => stop .badCodeEscape text

/-- The character of a code escape. The first half of a pair takes an escape for the second half
    with it, if that does not end the text. -/
def codeEscape (text : Text) : Step (Char × Text) := do
  let (n, rest) ← codeUnit text
  if 0xD800 ≤ n ∧ n < 0xDC00 ∧ 6 < rest.length ∧ rest.take 2 = ['\\', 'u'] then
    let (m, more) ← codeUnit (rest.drop 1)
    if 0xDC00 ≤ m ∧ m < 0xE000 then
      return (Char.ofNat (0x10000 + (n - 0xD800) * 0x400 + (m - 0xDC00)), more)
  return (Char.ofNat n, rest)

/-- The rest of a string; `whole` characters were left at its opening quote. -/
def stringFrom (whole : Nat) : Nat → Text → Step (Text × Text)
  | 0, _ => .error ⟨.openString, whole⟩
  | fuel + 1, text =>
    match text with
    | [] => .error ⟨.openString, whole⟩
    | '"' :: rest => .ok ([], rest)
    | '\\' :: rest =>
      match rest with
      | [] => .error ⟨.openString, whole⟩
      | c :: more =>
        if c = 'u' then do
          let (x, after) ← codeEscape rest
          let (tail, after) ← stringFrom whole fuel after
          return (x :: tail, after)
        else
          match escape? c with
          | none => stop .badEscape text
          | some x => do
            let (tail, after) ← stringFrom whole fuel more
            return (x :: tail, after)
    | c :: rest =>
      if c < ' ' then stop .controlCharacter text
      else do
        let (tail, after) ← stringFrom whole fuel rest
        return (c :: tail, after)

/-- A string behind its opening quote. -/
def string (rest : Text) : Step (Text × Text) := stringFrom (rest.length + 1) (rest.length + 1) rest

/-! ## Numbers -/

/-- The words that stand for numbers, null and the truth values. -/
def words : List (Text × Value) :=
  [("null".toList, .null), ("true".toList, .bool true), ("false".toList, .bool false),
    ("NaN".toList, .float Decimal.notANumber), ("Infinity".toList, .float Decimal.infinity),
    ("-Infinity".toList, .float (-Decimal.infinity))]

/-- The word that the text starts with, and what follows it. -/
def word? (text : Text) : Option (Value × Text) :=
  words.findSome? fun (name, value) => (Text.after? name text).map (value, ·)

/-- The whole part of a number: a zero, or digits that do not start with one. -/
def wholePart (text : Text) : Text :=
  match text with
  | '0' :: _ => ['0']
  | _ => text.takeWhile Char.isDigit

/-- A point with digits behind it. -/
def fractionPart (text : Text) : Text :=
  match text with
  | '.' :: rest =>
    match rest.takeWhile Char.isDigit with
    | [] => []
    | digits => '.' :: digits
  | _ => []

/-- An exponent mark with a sign, if there is one, and digits. -/
def exponentPart (text : Text) : Text :=
  match text with
  | [] => []
  | mark :: rest =>
    if mark = 'e' || mark = 'E' then
      let sign := (rest.take 1).filter fun c => c == '-' || c == '+'
      match (rest.drop sign.length).takeWhile Char.isDigit with
      | [] => []
      | digits => mark :: sign ++ digits
    else []

/-- A number. -/
def number (text : Text) : Step (Value × Text) :=
  let sign := (text.take 1).filter (· == '-')
  let whole := wholePart (text.drop sign.length)
  if whole.isEmpty then stop .expectedValue text
  else
    let rest := text.drop (sign.length + whole.length)
    let fraction := fractionPart rest
    let exponent := exponentPart (rest.drop fraction.length)
    let numeral := sign ++ whole ++ fraction ++ exponent
    let after := rest.drop (fraction.length + exponent.length)
    let value : Option Value :=
      if fraction.isEmpty && exponent.isEmpty then (Decimal.integer? 10 numeral).map .int
      else (Decimal.float? numeral).map .float
    match value with
    | some value => .ok (value, after)
    | none => stop .expectedValue text

/-! ## Documents -/

mutual

/-- A value at the start of the text. -/
def value : Nat → Text → Step (Value × Text)
  | 0, text => stop .expectedValue text
  | fuel + 1, text =>
    match text with
    | '"' :: rest => do
      let (s, after) ← string rest
      return (.str s, after)
    | '{' :: rest =>
      match skipSpace rest with
      | '}' :: after => .ok (.map [], after)
      | members => do
        let (pairs, after) ← object fuel members
        return (.map (Value.ofPairs pairs), after)
    | '[' :: rest =>
      match skipSpace rest with
      | ']' :: after => .ok (.list [], after)
      | items => do
        let (found, after) ← array fuel items
        return (.list found, after)
    | _ =>
      match word? text with
      | some (found, after) => .ok (found, after)
      | none => number text

/-- The members of an object from a name on, and its closing brace. -/
def object : Nat → Text → Step (List (Value × Value) × Text)
  | 0, text => stop .expectedName text
  | fuel + 1, text =>
    match text with
    | '"' :: rest => do
      let (name, after) ← string rest
      match skipSpace after with
      | ':' :: rest =>
        let (found, after) ← value fuel (skipSpace rest)
        match skipSpace after with
        | '}' :: rest => return ([(.str name, found)], rest)
        | ',' :: rest =>
          let (more, after) ← object fuel (skipSpace rest)
          return ((.str name, found) :: more, after)
        | rest => stop .expectedComma rest
      | rest => stop .expectedColon rest
    | _ => stop .expectedName text

/-- The items of an array from one on, and its closing bracket. -/
def array : Nat → Text → Step (List Value × Text)
  | 0, text => stop .expectedValue text
  | fuel + 1, text => do
    let (found, after) ← value fuel text
    match skipSpace after with
    | ']' :: rest => return ([found], rest)
    | ',' :: rest =>
      let (more, after) ← array fuel (skipSpace rest)
      return (found :: more, after)
    | rest => stop .expectedComma rest

end

/-- The value of a document, with white space around it and nothing else. -/
def document (text : Text) : Step Value := do
  let (found, after) ← value (text.length + 1) (skipSpace text)
  match skipSpace after with
  | [] => return found
  | rest => .error ⟨.extraData, rest.length⟩

/-- The value of a text. -/
def decode (text : Text) : Except Fault Value :=
  if text.head? = some '\uFEFF' then .error ⟨.byteOrderMark, 0⟩
  else
    match document text with
    | .ok found => .ok found
    | .error s => .error ⟨s.cause, text.length - s.left⟩

end YamlSplice.Json
