/-
  YamlSplice.Yaml.Token.Name — anchors, aliases, tags and directives.

  Names are made of letters, digits, hyphens and underscores. A tag is given in full between angle
  brackets, or by a suffix behind a handle; octets of it may be escaped with a percent sign.
-/

import YamlSplice.Yaml.Cursor
import YamlSplice.Yaml.Fault
import YamlSplice.Yaml.Token.Basic
import YamlSplice.Yaml.Token.Quoted

namespace YamlSplice.Yaml.Name

/-- A name of at least one character. -/
def word (c : Cursor) : Except Fault (Text × Cursor) :=
  let (name, c) := c.span isWordChar
  if name.isEmpty then .error .malformed else .ok (name, c)

/-- A character that may follow the name of an anchor or an alias. -/
def endsAnchor : Text → Bool
  | [] => true
  | c :: _ =>
    isWhite c || isBreak c || c == '?' || c == ':' || c == ',' || c == ']' || c == '\x7d' || c == '%'
      || c == '@' || c.toNat == 0x60

/-- The name of an anchor or an alias, from its sign on. -/
def anchor (c : Cursor) : Except Fault (Text × Cursor) := do
  let (name, c) ← word c.next
  if endsAnchor c.rest then return (name, c) else throw .malformed

/-! ## Tags -/

/-- A character of a tag. -/
def isTagChar (c : Char) : Bool :=
  isWordChar c || ";/?:@&=+$,.!~*'()[]%".toList.contains c

/-- Octets written as a percent sign and two hexadecimal digits, as far as they go. -/
def octets : Nat → Cursor → Except Fault (List UInt8 × Cursor)
  | 0, c => .ok ([], c)
  | fuel + 1, c =>
    match c.rest with
    | '%' :: rest =>
      match Quoted.hexCode? 2 rest with
      | none => .error .malformed
      | some n => do
        let (more, c) ← octets fuel (c.skip 3)
        return (UInt8.ofNat n :: more, c)
    | _ => .ok ([], c)

/-- The characters that octets stand for. -/
def decodeOctets (content : List UInt8) : Except Fault Text :=
  match String.fromUTF8? (ByteArray.mk content.toArray) with
  | some s => .ok s.toList
  | none => .error .malformed

/-- The characters of a tag, as far as they go. -/
def tagChars : Nat → Cursor → Except Fault (Text × Cursor)
  | 0, c => .ok ([], c)
  | fuel + 1, c =>
    match c.rest with
    | [] => .ok ([], c)
    | x :: _ =>
      if x == '%' then do
        let (content, c) ← octets (c.rest.length + 1) c
        let first ← decodeOctets content
        let (more, c) ← tagChars fuel c
        return (first ++ more, c)
      else if isTagChar x then do
        let (more, c) ← tagChars fuel c.next
        return (x :: more, c)
      else .ok ([], c)

/-- At least one character of a tag. -/
def tagText (c : Cursor) : Except Fault (Text × Cursor) :=
  if c.rest.head?.any isTagChar then tagChars (c.rest.length + 1) c else .error .malformed

/-- A handle: an exclamation mark, or a name between two. -/
def handle (c : Cursor) : Except Fault (Text × Cursor) :=
  match c.rest with
  | '!' :: rest =>
    if rest.head? == some ' ' then .ok (['!'], c.next)
    else
      let (name, after) := c.next.span isWordChar
      if after.rest.head? == some '!' then .ok ('!' :: name ++ ['!'], after.next)
      else .error .malformed
  | _ => .error .malformed

/-- The handle and the suffix of a tag, from its exclamation mark on. -/
def tag (c : Cursor) : Except Fault (Option Text × Text × Cursor) := do
  let rest := c.rest.drop 1
  let (name, suffix, c) ←
    if rest.head? == some '<' then do
      let (suffix, c) ← tagText (c.skip 2)
      if c.rest.head? == some '>' then pure (none, suffix, c.next) else throw .malformed
    else if atWhite rest then pure (none, ['!'], c.next)
    else if (rest.takeWhile fun x => !(x == ' ' || isBreak x)).contains '!' then do
      let (name, c) ← handle c
      let (suffix, c) ← tagText c
      pure (some name, suffix, c)
    else do
      let (suffix, c) ← tagText c.next
      pure (some ['!'], suffix, c)
  if atSpace c.rest then return (name, suffix, c) else throw .malformed

/-! ## Directives -/

/-- A number of a version. -/
def versionNumber (c : Cursor) : Except Fault (Nat × Cursor) :=
  let (digits, c) := c.span Char.isDigit
  if digits.isEmpty then .error .malformed
  else .ok (digits.foldl (fun n d => n * 10 + (d.toNat - 48)) 0, c)

/-- A version: two numbers with a point between them. -/
def version (c : Cursor) : Except Fault (Directive × Cursor) := do
  let (major, c) ← versionNumber c.skipSpaces
  if c.rest.head? != some '.' then throw .malformed
  let (_, c) ← versionNumber c.next
  if atSpace c.rest then return (.version major, c) else throw .malformed

/-- A handle and what it stands for. -/
def handleMeaning (c : Cursor) : Except Fault (Directive × Cursor) := do
  let (name, c) ← handle c.skipSpaces
  if c.rest.head? != some ' ' then throw .malformed
  let (meaning, c) ← tagText c.skipSpaces
  if atSpace c.rest then return (.handle name meaning, c) else throw .malformed

/-- A directive, from its percent sign to the end of its line. -/
def directive (c : Cursor) : Except Fault (Directive × Cursor) := do
  let (name, c) ← word c.next
  if !atSpace c.rest then throw .malformed
  let (found, c) ←
    if name = "YAML".toList then version c
    else if name = "TAG".toList then handleMeaning c
    else pure (Directive.other, c.skipWhile (!isBreak ·))
  let c := c.skipSpaces.skipComment
  if atLineEnd c.rest then return (found, c.takeBreak.2) else throw .malformed

end YamlSplice.Yaml.Name
