/-
  YamlSplice.Json.Fault — why a text is no JSON document, and where.

  A fault names its place by the number of characters before it; messages also give the line and
  the column, both counted from one.
-/

import YamlSplice.Text.Basic

namespace YamlSplice.Json

inductive Cause where
  | expectedValue
  | expectedColon
  | expectedComma
  | expectedName
  | extraData
  | openString
  | controlCharacter
  | badEscape
  | badCodeEscape
  | byteOrderMark
  deriving DecidableEq, Repr

structure Fault where
  cause : Cause
  offset : Nat
  deriving DecidableEq, Repr

def Cause.message : Cause → Text
  | .expectedValue => "Expecting value".toList
  | .expectedColon => "Expecting ':' delimiter".toList
  | .expectedComma => "Expecting ',' delimiter".toList
  | .expectedName => "Expecting property name enclosed in double quotes".toList
  | .extraData => "Extra data".toList
  | .openString => "Unterminated string starting at".toList
  | .controlCharacter => "Invalid control character at".toList
  | .badEscape => "Invalid \\escape".toList
  | .badCodeEscape => "Invalid \\uXXXX escape".toList
  | .byteOrderMark => "Unexpected UTF-8 BOM (decode using utf-8-sig)".toList

/-- The line of an offset, from one. -/
def lineOf (text : Text) (offset : Nat) : Nat := (text.take offset).count '\n' + 1

/-- The column of an offset, from one. -/
def columnOf (text : Text) (offset : Nat) : Nat :=
  ((text.take offset).reverse.takeWhile (· != '\n')).length + 1

/-- A fault in a text. -/
def Fault.message (fault : Fault) (text : Text) : Text :=
  fault.cause.message ++ ": line ".toList ++ Text.ofNat (lineOf text fault.offset)
    ++ " column ".toList ++ Text.ofNat (columnOf text fault.offset)
    ++ " (char ".toList ++ Text.ofNat fault.offset ++ [')']

end YamlSplice.Json
