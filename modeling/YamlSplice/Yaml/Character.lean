/-
  YamlSplice.Yaml.Character — the classes of characters that the syntax of YAML 1.1 knows.

  Tests on a text look at its first character; the end of the text counts as the end of a line.
-/

import YamlSplice.Text.Basic

namespace YamlSplice.Yaml

/-- Line breaks: line feed, carriage return, next line, line separator, paragraph separator. -/
def isBreak (c : Char) : Bool :=
  c == '\n' || c == '\r' || c == '\x85' || c == '\u2028' || c == '\u2029'

/-- A space or a tab. -/
def isWhite (c : Char) : Bool := c == ' ' || c == '\t'

/-- A character that a document may hold. -/
def isAllowed (c : Char) : Bool :=
  let n := c.toNat
  n == 9 || n == 10 || n == 13 || (0x20 ≤ n && n ≤ 0x7E) || n == 0x85 || (0xA0 ≤ n && n ≤ 0xD7FF)
    || (0xE000 ≤ n && n ≤ 0xFFFD) || 0x10000 ≤ n

/-- Letters, digits, hyphen and underscore. -/
def isWordChar (c : Char) : Bool :=
  ('0' ≤ c && c ≤ '9') || ('A' ≤ c && c ≤ 'Z') || ('a' ≤ c && c ≤ 'z') || c == '-' || c == '_'

/-- The end of the line is reached. -/
def atLineEnd : Text → Bool
  | [] => true
  | c :: _ => isBreak c

/-- A space or the end of the line follows. -/
def atSpace : Text → Bool
  | [] => true
  | c :: _ => c == ' ' || isBreak c

/-- A space, a tab or the end of the line follows. -/
def atWhite : Text → Bool
  | [] => true
  | c :: _ => isWhite c || isBreak c

/-- The text starts with the mark of a document, `---` or `...`, followed by white space. -/
def atMark (mark : Char) : Text → Bool
  | a :: b :: c :: rest => a == mark && b == mark && c == mark && atWhite rest
  | _ => false

/-- The text starts with either mark of a document. -/
def atDocumentMark (text : Text) : Bool := atMark '-' text || atMark '.' text

end YamlSplice.Yaml
