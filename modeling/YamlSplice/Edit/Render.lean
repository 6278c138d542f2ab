/-
  YamlSplice.Edit.Render — keys and values as text.

  Reading and writing YAML are given as a format, so that the edits can be understood apart from
  them. Tuples are written as lists. Sequences under a key are written two columns to the right of
  it and then moved back, unless the caller keeps them there; a value on its own is written
  without the line that marks the end of a document.
  - `outdentLists_keep`: text that is to be kept is not touched.
-/

import YamlSplice.Edit.Failure
import YamlSplice.Edit.Settings

namespace YamlSplice

/-- A way to read documents and to write values. Writing fails with the part of the value that
    cannot be written. -/
structure Format where
  read : Text → Except Failure Value
  write : Value → Except Value Text

namespace Render

mutual

/-- The value with lists in place of tuples, except in keys and sets. -/
def plain : Value → Value
  | .list items => .list (plainItems items)
  | .tuple items => .list (plainItems items)
  | .map entries => .map (plainEntries entries)
  | value => value

def plainItems : List Value → List Value
  | [] => []
  | x :: rest => plain x :: plainItems rest

def plainEntries : List (Value × Value) → List (Value × Value)
  | [] => []
  | (k, v) :: rest => (k, plain v) :: plainEntries rest

end

/-- A line that starts with two spaces or more and a list mark, two columns to the left. -/
def outdentLine (line : Text) : Text :=
  match line.dropWhile (· == ' ') with
  | '-' :: ' ' :: _ => if Text.startsWith line [' ', ' '] then line.drop 2 else line
  | _ => line

/-- Moves list marks to the column of the key above them, unless they are to be kept. -/
def outdentLists (keep : Bool) (text : Text) : Text :=
  if keep then text else Text.unlines ((Text.lines text).map outdentLine)

/-- The line that marks the end of a document. -/
def documentEnd : Text := "\n...\n".toList

/-- The text without the mark of its end. -/
def dropDocumentEnd (text : Text) : Text :=
  if documentEnd.isSuffixOf text then text.take (text.length - documentEnd.length + 1) else text

variable (format : Format)

/-- An entry of a mapping as text. -/
def entry (keep : Bool) (key value : Value) : Except Failure Text :=
  match format.write (.map [(key, plain value)]) with
  | .ok text => .ok (outdentLists keep text)
  | .error part => .error (.unwritableEntry key.written value part)

/-- A value as text. -/
def value (keep : Bool) (v : Value) : Except Failure Text :=
  match format.write (plain v) with
  | .ok text => .ok (outdentLists keep (dropDocumentEnd text))
  | .error part => .error (.unwritable v part)

/-- An entry for a key that the text already has: the key stays spelled as it is there, also where
    writing would put it in quotes. -/
def entryKeepingKey (keep : Bool) (key : Text) (v : Value) : Except Failure Text := do
  let text ← entry format keep (.str key) v
  let rendered := Text.dropTrailingNewlines (← value format false (.str key))
  match Text.after? (rendered ++ [':']) text with
  | some rest => return if rendered = key then text else key ++ ':' :: rest
  | none => return text

theorem outdentLists_keep (text : Text) : outdentLists true text = text := rfl

end Render
end YamlSplice
