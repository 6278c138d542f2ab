/-
  YamlSplice.Yaml.Style — how a scalar may be written.

  A scalar is written plain if its text allows it and has the right type without a tag. Otherwise
  it stands between single quotes, if these can hold it, or between double quotes, which can hold
  everything. A literal block is used only where it is asked for.
-/

import YamlSplice.Yaml.Character

namespace YamlSplice.Yaml

inductive Style where
  | plain
  | single
  | double
  | literal
  deriving DecidableEq, Repr

/-- What a text allows. -/
structure Traits where
  /-- It has no characters. -/
  empty : Bool
  /-- It has line breaks. -/
  multiline : Bool
  /-- It may stand without quotes. -/
  plain : Bool
  /-- It may stand between single quotes. -/
  single : Bool
  /-- It may be a literal block. -/
  literal : Bool
  deriving DecidableEq, Repr

namespace Style

/-- A line break that the writer keeps; a carriage return is escaped instead. -/
def isKept (c : Char) : Bool := c == '\n' || c == '\x85' || c == '\u2028' || c == '\u2029'

/-- A character that can stand for itself on a page, line breaks included. -/
def isOrdinary (c : Char) : Bool :=
  let n := c.toNat
  n == 0x0A || (0x20 ≤ n && n ≤ 0x7E) || n == 0x85
    || (n != 0xFEFF && ((0xA0 ≤ n && n ≤ 0xD7FF) || (0xE000 ≤ n && n ≤ 0xFFFD)
      || (0x10000 ≤ n && n < 0x10FFFF)))

/-- A sign that no plain scalar may start with. -/
def isLeadingSign (c : Char) : Bool :=
  "#,[]\x7b\x7d&*!|>'\"%@".toList.contains c || c.toNat == 0x60

/-- The text starts like something else than a plain scalar. -/
def hasLeadingSign (text : Text) : Bool :=
  match text with
  | [] => false
  | c :: rest => isLeadingSign c || ((c == '?' || c == ':' || c == '-') && atWhite rest)

/-- Behind `before` the text has a colon that white space follows, or a number sign that white space
    precedes. -/
def hasInnerSign (before : Char) : Text → Bool
  | [] => false
  | c :: rest =>
    (c == ':' && atWhite rest) || (c == '#' && (isWhite before || isBreak before)) || hasInnerSign c rest

/-- The text could be taken for something else than a plain scalar. -/
def hasSign (text : Text) : Bool :=
  Text.startsWith text ['-', '-', '-'] || Text.startsWith text ['.', '.', '.'] || hasLeadingSign text
    || (match text with
      | [] => false
      | c :: rest => hasInnerSign c rest)

/-- Two characters in a row, the first and the second of a class each. -/
def hasPair (first second : Char → Bool) (text : Text) : Bool :=
  (text.zip text.tail).any fun pair => first pair.1 && second pair.2

/-- What a text allows. -/
def traits (text : Text) : Traits :=
  if text.isEmpty then ⟨true, false, true, true, false⟩
  else
    let isSpace (c : Char) : Bool := c == ' '
    let isEdge (c : Option Char) : Bool := c.any fun c => isSpace c || isKept c
    let multiline := text.any isKept
    let clean := !hasPair isSpace isKept text && text.all isOrdinary
    let indentedBreak := hasPair isKept isSpace text
    { empty := false
      multiline
      plain := clean && !multiline && !isEdge text.head? && !isEdge text.getLast? && !hasSign text
      single := clean && !indentedBreak
      literal := clean && text.getLast? != some ' ' }

/-- The style of a scalar: `typed` says that it has the right type if it is plain, `key` that it is a
    simple key, `literal` that a literal block is asked for. -/
def choose (t : Traits) (typed key literal : Bool) : Style :=
  let unfit := key && (t.empty || t.multiline)
  if literal then (if !key && t.literal then .literal else .double)
  else if typed && t.plain && !unfit then .plain
  else if t.single && !(key && t.multiline) then .single
  else .double

end Style
end YamlSplice.Yaml
