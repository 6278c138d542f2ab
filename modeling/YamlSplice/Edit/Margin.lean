/-
  YamlSplice.Edit.Margin — taking the indentation off a block and putting it back.

  The unit of a block is the run of spaces before its first indented content. Every line is
  remembered with the mark whether it starts with the unit. After the block has been changed, its
  lines are matched in order with the remembered ones by their content without blanks at the ends;
  a matched line is indented as its counterpart was, any other line unless it is blank.
-/

import YamlSplice.Edit.Run
import YamlSplice.Text.Blank

namespace YamlSplice

/-- A line of a block, and whether it starts with the unit. -/
structure BlockLine where
  content : Text
  indented : Bool
  deriving DecidableEq, Repr

namespace Margin

/-- The number of spaces at the start of a text that a character other than a hyphen, a number
    sign or a space follows; that may be the newline. -/
def unitAtStart? (text : Text) : Option Nat :=
  let spaces := text.takeWhile (· == ' ')
  match text.drop spaces.length with
  | [] => none
  | c :: _ => if spaces.isEmpty || c == '-' || c == '#' then none else some spaces.length

/-- The unit that the first line with one shows, of the lines behind newlines. -/
def unitAfterNewline? : Text → Option Nat
  | [] => none
  | c :: rest =>
    if c = '\n' then
      match unitAtStart? rest with
      | some n => some n
      | none => unitAfterNewline? rest
    else unitAfterNewline? rest

/-- The width of the unit of a block. -/
def unitWidth? (block : Text) : Option Nat :=
  match unitAtStart? block with
  | some n => some n
  | none => unitAfterNewline? block

/-- The unit of the block of a key. -/
def unit (key block : Text) : Except Failure Text :=
  match unitWidth? block with
  | some n => .ok (List.replicate n ' ')
  | none => .error (.noIndent key block)

/-- The lines of a block with their marks. -/
def marks (block unit : Text) : List BlockLine :=
  (Text.lines block).map fun line => ⟨line, Text.startsWith line unit⟩

/-- A line without the unit that it is marked to start with. -/
def bareLine (unit : Text) (line : BlockLine) : Text :=
  if line.indented then line.content.drop unit.length else line.content

/-- The block without its unit. -/
def bare (lines : List BlockLine) (unit : Text) : Text := Text.unlines (lines.map (bareLine unit))

/-- The mark of the first line with this content between blanks, and the lines after it. -/
def counterpart? (content : Text) : List BlockLine → Option (Bool × List BlockLine)
  | [] => none
  | line :: rest =>
    if Text.strip line.content = content then some (line.indented, rest) else counterpart? content rest

/-- A line with the unit in front, or without. -/
def indentLine (unit : Text) (indented : Bool) (line : Text) : Text :=
  if indented then unit ++ line else line

/-- Indents lines by their counterparts; a line that has none takes none away. -/
def restoreLines (unit : Text) : List Text → List BlockLine → List Text
  | [], _ => []
  | line :: rest, known =>
    match counterpart? (Text.strip line) known with
    | some (indented, later) => indentLine unit indented line :: restoreLines unit rest later
    | none => indentLine unit (Text.hasContent line) line :: restoreLines unit rest known

/-- The text with its lines indented as their counterparts were. -/
def restore (text : Text) (known : List BlockLine) (unit : Text) : Text :=
  Text.unlines (restoreLines unit (Text.lines text) known)

/-- Changes the block of a key as if it stood at the margin. The result ends with a newline. -/
def change (key block : Text) (change : Text → Run Text) : Run Text := do
  let u ← Run.ofExcept (unit key block)
  Run.note (.indentFound key u.length)
  let known := marks block u
  let changed ← change (bare known u)
  return Text.closeLine (restore changed known u)

end Margin
end YamlSplice
