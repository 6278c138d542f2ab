/-
  YamlSplice.Yaml.Tag — the types of nodes, and the type of a plain scalar by its text.

  A scalar without a tag is null, a truth value, a number, a date or a moment, a merge sign or a
  default sign if its text has that form, and text otherwise. Which words are truth values is up
  to the caller: documents are read with fewer of them than other programs may read. A final line
  break of the text is overlooked.
-/

import YamlSplice.Text.Basic

namespace YamlSplice.Yaml

inductive Tag where
  | null
  | bool
  | int
  | float
  | timestamp
  | str
  | binary
  | seq
  | map
  | set
  /-- A sequence of mappings of one entry each, in which keys may repeat; read as tuples. -/
  | omap
  | pairs
  /-- The key `<<`, which takes in the entries of other mappings. -/
  | merge
  /-- The key `=`, under which a mapping keeps the scalar that it stands for. -/
  | default
  | other (name : Text)
  deriving DecidableEq, Repr

namespace Tag

/-- The leading part of the tags that the language defines. -/
def core : Text := "tag:yaml.org,2002:".toList

/-- The tags of the language by their names behind the leading part. -/
def names : List (Text × Tag) :=
  [("null".toList, null), ("bool".toList, bool), ("int".toList, int), ("float".toList, float),
    ("timestamp".toList, timestamp), ("str".toList, str), ("binary".toList, binary),
    ("seq".toList, seq), ("map".toList, map), ("set".toList, set), ("omap".toList, omap),
    ("pairs".toList, pairs), ("merge".toList, merge), ("value".toList, default)]

/-- The tag of a full name. -/
def ofName (name : Text) : Tag :=
  match (Text.after? core name).bind fun short => (names.find? (·.1 == short)).map (·.2) with
  | some tag => tag
  | none => other name

/-- The name of a tag behind the short handle of the language; empty for tags of other origin. -/
def shortName (tag : Tag) : Text := ((names.find? (·.2 == tag)).map (·.1)).getD []

end Tag

/-! ## Forms of numbers -/

namespace Form

def isDigit (c : Char) : Bool := '0' ≤ c && c ≤ '9'

def isDigitOrBar (c : Char) : Bool := isDigit c || c == '_'

/-- The text without a sign in front. -/
def unsigned : Text → Text
  | '-' :: rest => rest
  | '+' :: rest => rest
  | rest => rest

/-- At least one character, all of a class. -/
def allOf (p : Char → Bool) (text : Text) : Bool := !text.isEmpty && text.all p

/-- A digit that passes a test, then digits and underscores. -/
def isWhole (p : Char → Bool) : Text → Bool
  | [] => false
  | c :: rest => p c && rest.all isDigitOrBar

/-- A place of a number to base sixty behind the first: up to 59. -/
def isSixtieth : Text → Bool
  | [a] => isDigit a
  | [a, b] => '0' ≤ a && a ≤ '5' && isDigit b
  | _ => false

/-- A whole number to base sixty of at least two places. -/
def isSexagesimal (p : Char → Bool) (text : Text) : Bool :=
  match Text.pieces ':' text with
  | first :: second :: more => isWhole p first && (second :: more).all isSixtieth
  | _ => false

def isPositive (c : Char) : Bool := '1' ≤ c && c ≤ '9'

/-- An integer: decimal, to base two, eight or sixteen behind a zero, or to base sixty. -/
def isInt (text : Text) : Bool :=
  let t := unsigned text
  match t with
  | '0' :: 'b' :: rest => allOf (fun c => c == '0' || c == '1' || c == '_') rest
  | '0' :: 'x' :: rest =>
    allOf (fun c => isDigitOrBar c || ('a' ≤ c && c ≤ 'f') || ('A' ≤ c && c ≤ 'F')) rest
  | '0' :: rest => rest.all fun c => ('0' ≤ c && c ≤ '7') || c == '_'
  | _ => isWhole isPositive t || isSexagesimal isPositive t

/-- Nothing, or an exponent with a sign. -/
def isExponent : Text → Bool
  | [] => true
  | mark :: sign :: digits => (mark == 'e' || mark == 'E') && (sign == '-' || sign == '+') && allOf isDigit digits
  | _ => false

/-- Digits and underscores, then nothing or an exponent. -/
def isFraction (text : Text) : Bool := isExponent (text.dropWhile isDigitOrBar)

/-- A floating-point number: with a point, to base sixty with a point, infinite, or not a number. -/
def isFloat (text : Text) : Bool :=
  let t := unsigned text
  let whole := t.takeWhile (· != '.')
  match t.drop whole.length with
  | '.' :: fraction =>
    if whole.isEmpty then
      ["inf", "Inf", "INF"].any (fun w => fraction == w.toList)
        || (t.length == text.length
            && (["nan", "NaN", "NAN"].any (fun w => fraction == w.toList)
              || (fraction.head?.any isDigit && isFraction fraction)))
    else
      (isWhole isDigit whole && isFraction fraction)
        || (isSexagesimal isDigit whole && fraction.all isDigitOrBar)
  | _ => false

/-! ## Forms of dates and moments -/

/-- A date or a moment as it is written. -/
structure Moment where
  year : Nat
  month : Nat
  day : Nat
  /-- Month and day have two digits each. -/
  full : Bool
  time : Option (Nat × Nat × Nat)
  /-- The digits of the fraction of a second. -/
  fraction : Text
  /-- Seconds east of universal time. -/
  offset : Option Int
  deriving DecidableEq, Repr

/-- The value of digits. -/
def number (digits : Text) : Nat := digits.foldl (fun n c => n * 10 + (c.toNat - 48)) 0

/-- From `least` to `most` digits, as many as there are, and what follows. -/
def digits? (least most : Nat) (text : Text) : Option (Text × Text) :=
  let found := (text.take most).takeWhile isDigit
  if found.length < least then none else some (found, text.drop found.length)

/-- The rest of a text that starts with a character. -/
def char? (c : Char) : Text → Option Text
  | [] => none
  | d :: rest => if c = d then some rest else none

def dropWhite (text : Text) : Text := text.dropWhile fun c => c == ' ' || c == '\t'

/-- What may stand between date and time: a letter T, or spaces and tabs. -/
def afterDate? : Text → Option Text
  | [] => none
  | c :: rest =>
    if c = 'T' || c = 't' then some rest
    else if c = ' ' || c = '\t' then some (dropWhite rest)
    else none

/-- An offset from universal time at the end of a text: a letter Z, or hours with a sign and
    perhaps minutes. -/
def offset? (text : Text) : Option Int :=
  match text with
  | ['Z'] => some 0
  | sign :: rest =>
    if sign = '+' || sign = '-' then do
      let (hours, rest) ← digits? 1 2 rest
      let minutes ←
        match rest with
        | [] => some 0
        | _ => do
          let (minutes, rest) ← digits? 2 2 (← char? ':' rest)
          if rest.isEmpty then some (number minutes) else none
      let seconds : Int := (number hours * 60 + minutes) * 60
      some (if sign = '-' then -seconds else seconds)
    else none
  | [] => none

/-- The parts of a text that has the form of a date or a moment. -/
def moment? (text : Text) : Option Moment := do
  let (year, rest) ← digits? 4 4 text
  let (month, rest) ← digits? 1 2 (← char? '-' rest)
  let (day, rest) ← digits? 1 2 (← char? '-' rest)
  let full := month.length == 2 && day.length == 2
  let date : Moment := ⟨number year, number month, number day, full, none, [], none⟩
  if rest.isEmpty then some date
  else
    let (hour, rest) ← digits? 1 2 (← afterDate? rest)
    let (minute, rest) ← digits? 2 2 (← char? ':' rest)
    let (second, rest) ← digits? 2 2 (← char? ':' rest)
    let (fraction, rest) :=
      match rest with
      | '.' :: more => (more.takeWhile isDigit, more.dropWhile isDigit)
      | _ => ([], rest)
    let time := some (number hour, number minute, number second)
    if rest.isEmpty then some { date with time, fraction }
    else
      let offset ← offset? (dropWhite rest)
      some { date with time, fraction, offset := some offset }

/-- A date with all its digits, or a moment. -/
def isTimestamp (text : Text) : Bool :=
  match moment? text with
  | some m => m.full || m.time.isSome
  | none => false

end Form

/-! ## Tags of plain scalars -/

/-- The words for truth values that documents are read with. -/
def boolWords : List Text := ["true", "True", "TRUE", "false", "False", "FALSE"].map String.toList

/-- The words that other programs may read as truth values. -/
def broadBoolWords : List Text :=
  ["yes", "Yes", "YES", "no", "No", "NO", "on", "On", "ON", "off", "Off", "OFF"].map String.toList
    ++ boolWords

def nullWords : List Text := ["~", "null", "Null", "NULL"].map String.toList

/-- The text without one newline at its end. -/
def dropFinalNewline (text : Text) : Text := if Text.endsLine text then text.dropLast else text

/-- The type of a scalar without a tag. A sign that no plain scalar can be is of no type with values. -/
def Tag.ofPlain (words : List Text) (text : Text) : Tag :=
  if text.isEmpty then .null
  else
    let t := dropFinalNewline text
    if words.contains t then .bool
    else if Form.isFloat t then .float
    else if Form.isInt t then .int
    else if t == ['<', '<'] then .merge
    else if nullWords.contains t then .null
    else if Form.isTimestamp t then .timestamp
    else if t == ['='] then .default
    else if t == ['!'] || t == ['&'] || t == ['*'] then .other (core ++ "yaml".toList)
    else .str

end YamlSplice.Yaml
