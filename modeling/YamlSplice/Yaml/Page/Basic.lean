/-
  YamlSplice.Yaml.Page.Basic — a page that is being written.

  The page knows the column and whether white space stands before it, and whether nothing but
  indentation and list marks stands on the line. What is written is kept newest first.
  - `text_put` / `text_breakLine`: writing adds to the end of the text.
-/

import YamlSplice.Text.Basic

namespace YamlSplice.Yaml

structure Page where
  /-- The characters so far, newest first. -/
  written : Text := []
  column : Nat := 0
  /-- White space stands before the column, or nothing at all. -/
  spaced : Bool := true
  /-- The line holds nothing but indentation and marks that others may follow. -/
  atMargin : Bool := true
  /-- The page ends in a scalar that does not show its end. -/
  openEnded : Bool := false
  deriving DecidableEq, Repr

namespace Page

/-- The column behind which long scalars are folded. -/
def width : Nat := 80

/-- The text of a page. -/
def text (p : Page) : Text := p.written.reverse

/-- Writes characters of a line. -/
def put (p : Page) (s : Text) : Page :=
  { p with written := s.reverse ++ p.written, column := p.column + s.length }

/-- Ends the line by a line break. -/
def breakLine (p : Page) (c : Char) : Page :=
  { p with written := c :: p.written, column := 0, spaced := true, atMargin := true }

/-- Moves to an indentation, on a new line unless only marks stand to the left of it. -/
def indentTo (p : Page) (indent : Nat) : Page :=
  let p := if !p.atMargin || indent < p.column || (p.column == indent && !p.spaced) then p.breakLine '\n' else p
  if p.column < indent then { p.put (List.replicate (indent - p.column) ' ') with spaced := true } else p

/-- Writes a sign directly behind what is there. -/
def close (p : Page) (sign : Text) : Page :=
  { p.put sign with spaced := false, atMargin := false, openEnded := false }

/-- Writes a sign apart from what is there. -/
def sign (p : Page) (s : Text) : Page := p.close (if p.spaced then s else ' ' :: s)

/-- Writes a mark that others may follow on the same line. -/
def mark (p : Page) (s : Text) : Page := { p.sign s with atMargin := p.atMargin }

/-- The page as if text stood before the column. -/
def afterText (p : Page) : Page := { p with spaced := false, atMargin := false }

theorem text_put (p : Page) (s : Text) : (p.put s).text = p.text ++ s := by simp [text, put]

theorem text_breakLine (p : Page) (c : Char) : (p.breakLine c).text = p.text ++ [c] := by
  simp [text, breakLine]

end Page
end YamlSplice.Yaml
