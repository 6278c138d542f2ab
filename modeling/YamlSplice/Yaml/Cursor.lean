/-
  YamlSplice.Yaml.Cursor — a place in the text of a document.

  The place is the text that is left, with its index, its line and its column, all from zero. A
  carriage return and a line feed after it are one line break; a byte order mark takes no column.
  - `rest_next` / `rest_skip`: moving on drops characters.
-/

import YamlSplice.Yaml.Character

namespace YamlSplice.Yaml

structure Cursor where
  rest : Text
  index : Nat := 0
  line : Nat := 0
  column : Nat := 0
  deriving DecidableEq, Repr

namespace Cursor

/-- Passes over one character. -/
def next (c : Cursor) : Cursor :=
  match c.rest with
  | [] => c
  | x :: rest =>
    if isBreak x && !(x == '\r' && rest.head? == some '\n') then ⟨rest, c.index + 1, c.line + 1, 0⟩
    else if x == '\uFEFF' then ⟨rest, c.index + 1, c.line, c.column⟩
    else ⟨rest, c.index + 1, c.line, c.column + 1⟩

/-- Passes over `n` characters. -/
def skip (c : Cursor) : Nat → Cursor
  | 0 => c
  | n + 1 => c.next.skip n

/-- The characters up to the first that fails a test, and the place of that one. -/
def span (c : Cursor) (p : Char → Bool) : Text × Cursor :=
  let run := c.rest.takeWhile p
  (run, c.skip run.length)

/-- The place of the first character that fails a test. -/
def skipWhile (c : Cursor) (p : Char → Bool) : Cursor := (c.span p).2

def skipSpaces (c : Cursor) : Cursor := c.skipWhile (· == ' ')

/-- Passes over a line break, if one is next: what it stands for, and the place behind it. The
    separators of lines and paragraphs stand for themselves, every other break for a newline. -/
def takeBreak (c : Cursor) : Text × Cursor :=
  match c.rest with
  | [] => ([], c)
  | x :: rest =>
    if x == '\r' && rest.head? == some '\n' then (['\n'], c.skip 2)
    else if x == '\u2028' || x == '\u2029' then ([x], c.next)
    else if isBreak x then (['\n'], c.next)
    else ([], c)

/-- Passes over a comment, if one is next. -/
def skipComment (c : Cursor) : Cursor :=
  if c.rest.head? == some '#' then c.skipWhile (!isBreak ·) else c

theorem rest_next (c : Cursor) : c.next.rest = c.rest.tail := by
  unfold next
  split
  · next h => simp [h]
  · next h => split <;> (try split) <;> simp [h]

theorem rest_skip (c : Cursor) (n : Nat) : (c.skip n).rest = c.rest.drop n := by
  induction n generalizing c with
  | zero => simp [skip]
  | succ n ih => rw [skip, ih, rest_next, ← List.drop_one, List.drop_drop, Nat.add_comm]

end Cursor
end YamlSplice.Yaml
