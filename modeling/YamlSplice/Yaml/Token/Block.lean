/-
  YamlSplice.Yaml.Token.Block — block scalars.

  The header says how the trailing line breaks are kept and, if need be, how far the lines are
  indented beyond the block around them; else the first lines show it. In a folded scalar a line
  break between two lines that do not start with white space is read as a space.
-/

import YamlSplice.Yaml.Cursor
import YamlSplice.Yaml.Fault

namespace YamlSplice.Yaml.Block

/-- What becomes of the line breaks at the end. -/
inductive Chomping where
  | strip
  | clip
  | keep
  deriving DecidableEq, Repr

/-- A sign that tells the chomping. -/
def chomping? : Char → Option Chomping
  | '+' => some .keep
  | '-' => some .strip
  | _ => none

/-- A digit that tells the indentation. -/
def increment? (c : Char) : Option Nat := if '0' ≤ c && c ≤ '9' then some (c.toNat - 48) else none

/-- The indicators of a header, in either order. -/
def indicators (c : Cursor) : Chomping × Option Nat × Cursor :=
  match c.rest with
  | a :: b :: _ =>
    match chomping? a, increment? a, chomping? b, increment? b with
    | some k, _, _, some n => (k, some n, c.skip 2)
    | none, some n, some k, _ => (k, some n, c.skip 2)
    | some k, _, _, none => (k, none, c.next)
    | none, some n, none, _ => (.clip, some n, c.next)
    | none, none, _, _ => (.clip, none, c)
  | [a] =>
    match chomping? a, increment? a with
    | some k, _ => (k, none, c.next)
    | none, some n => (.clip, some n, c.next)
    | none, none => (.clip, none, c)
  | [] => (.clip, none, c)

/-- The rest of a header line, with spaces and a comment, up to the next line. -/
def endHeader (c : Cursor) : Except Fault Cursor :=
  if atSpace c.rest then
    let c := c.skipSpaces.skipComment
    if atLineEnd c.rest then .ok c.takeBreak.2 else .error .malformed
  else .error .malformed

/-- The lines before the first one with content: their breaks, the widest run of spaces, and the
    place behind them. -/
def leading : Nat → Nat → Cursor → Text × Nat × Cursor
  | 0, widest, c => ([], widest, c)
  | fuel + 1, widest, c =>
    match c.rest with
    | [] => ([], widest, c)
    | x :: _ =>
      if x == ' ' then leading fuel (max widest c.next.column) c.next
      else if isBreak x then
        let (first, c) := c.takeBreak
        let (more, widest, c) := leading fuel widest c
        (first ++ more, widest, c)
      else ([], widest, c)

/-- Spaces up to a column. -/
def skipIndent (indent : Nat) : Nat → Cursor → Cursor
  | 0, c => c
  | fuel + 1, c =>
    if c.column < indent && c.rest.head? == some ' ' then skipIndent indent fuel c.next else c

/-- Empty lines, and the indentation of the line behind them. -/
def emptyLines (indent : Nat) : Nat → Cursor → Text × Cursor
  | 0, c => ([], c)
  | fuel + 1, c =>
    let c := skipIndent indent indent c
    match c.takeBreak with
    | ([], c) => ([], c)
    | (first, c) =>
      let (more, c) := emptyLines indent fuel c
      (first ++ more, c)

/-- What stands for a line break between two lines of content with `breaks` empty lines between. -/
def joint (folded : Bool) (lineBreak breaks above below : Text) : Text :=
  if folded && lineBreak == ['\n'] && !(above.head?.any isWhite) && !(below.head?.any isWhite) then
    if breaks.isEmpty then [' '] else []
  else lineBreak

/-- The lines of content from the one at the cursor on, with `before` the empty lines above it: the
    text without its end, the last line break, and the breaks of the empty lines at the end. -/
def content (folded : Bool) (indent : Nat) : Nat → Text → Cursor → Text × Text × Text × Cursor
  | 0, before, c => ([], [], before, c)
  | fuel + 1, before, c =>
    if c.column == indent && !c.rest.isEmpty then
      let (line, afterLine) := c.span (!isBreak ·)
      let (lineBreak, afterBreak) := afterLine.takeBreak
      let (empty, next) := emptyLines indent (afterBreak.rest.length + 1) afterBreak
      if next.column == indent && !next.rest.isEmpty then
        let (text, last, tail, after) := content folded indent fuel empty next
        (before ++ line ++ joint folded lineBreak empty line next.rest ++ text, last, tail, after)
      else (before ++ line, lineBreak, empty, next)
    else ([], [], before, c)

/-- A block scalar inside a block indented by `outer`, -1 for none, from its sign on. -/
def scan (folded : Bool) (outer : Int) (c : Cursor) : Except Fault (Text × Cursor) := do
  let (chomping, increment, c) := indicators c.next
  if increment = some 0 then throw .malformed
  let c ← endHeader c
  let least := (max (outer + 1) 1).toNat
  let (before, indent, c) :=
    match increment with
    | none =>
      let (before, widest, c) := leading (c.rest.length + 1) 0 c
      (before, max least widest, c)
    | some n =>
      let indent := least + n - 1
      let (before, c) := emptyLines indent (c.rest.length + 1) c
      (before, indent, c)
  let (text, last, tail, c) := content folded indent (c.rest.length + 1) before c
  return match chomping with
    | .strip => (text, c)
    | .clip => (text ++ last, c)
    | .keep => (text ++ last ++ tail, c)

end YamlSplice.Yaml.Block
