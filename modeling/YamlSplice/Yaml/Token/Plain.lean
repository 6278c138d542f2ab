/-
  YamlSplice.Yaml.Token.Plain — scalars without quotes.

  A plain scalar goes on over spaces and line breaks until a colon with white space behind it, a
  number sign behind a space, a tab, the mark of a document, or a line that is not indented enough
  to belong to it. Inside a flow collection it also ends at the signs of that collection.
-/

import YamlSplice.Yaml.Cursor

namespace YamlSplice.Yaml.Plain

/-- The signs of flow collections. -/
def isFlowSign (c : Char) : Bool :=
  c == ',' || c == '[' || c == ']' || c == '\x7b' || c == '\x7d'

/-- The scalar ends before `c`, which `rest` follows. -/
def endsAt (inFlow : Bool) (c : Char) (rest : Text) : Bool :=
  isWhite c || isBreak c
    || (c == ':' && (atWhite rest || (inFlow && rest.head?.any isFlowSign)))
    || (inFlow && (isFlowSign c || c == '?'))

/-- The characters up to the end of the scalar or the next white space. -/
def run (inFlow : Bool) : Text → Text
  | [] => []
  | c :: rest => if endsAt inFlow c rest then [] else c :: run inFlow rest

/-- Spaces and line breaks: what the breaks stand for, or nothing at the mark of a document. -/
def moreBreaks : Nat → Cursor → Option Text × Cursor
  | 0, c => (some [], c)
  | fuel + 1, c =>
    let c := c.skipSpaces
    match c.takeBreak with
    | ([], c) => (some [], c)
    | (first, c) =>
      if atDocumentMark c.rest then (none, c)
      else
        let (more, c) := moreBreaks fuel c
        (more.map (first ++ ·), c)

/-- What lies between two parts of a scalar. -/
structure Gap where
  /-- What it is read as; empty if the scalar ends here. -/
  text : Text
  /-- A line break was passed over. -/
  broken : Bool

/-- Passes over the spaces and line breaks behind a part. -/
def gap (c : Cursor) : Gap × Cursor :=
  let (spaces, c) := c.span (· == ' ')
  match c.takeBreak with
  | ([], c) => (⟨spaces, false⟩, c)
  | (first, c) =>
    if atDocumentMark c.rest then (⟨[], true⟩, c)
    else
      match moreBreaks (c.rest.length + 1) c with
      | (none, c) => (⟨[], true⟩, c)
      | (some more, c) =>
        let text :=
          if first ≠ ['\n'] then first ++ more else if more.isEmpty then [' '] else more
        (⟨text, true⟩, c)

/-- A scalar from the cursor on, `least` being the least column of its further lines: its text, the
    place behind it, and whether it ended behind a line break. -/
def scan (inFlow : Bool) (least : Int) : Nat → Cursor → Text × Cursor × Bool
  | 0, c => ([], c, false)
  | fuel + 1, c =>
    let part := run inFlow c.rest
    if part.isEmpty || c.rest.head? == some '#' then ([], c, false)
    else
      let (between, next) := gap (c.skip part.length)
      if between.text.isEmpty || next.rest.head? == some '#' || (!inFlow && (next.column : Int) < least)
      then (part, next, between.broken)
      else
        match scan inFlow least fuel next with
        | ([], c, _) => (part, c, between.broken)
        | (more, c, broken) => (part ++ between.text ++ more, c, broken)

end YamlSplice.Yaml.Plain
