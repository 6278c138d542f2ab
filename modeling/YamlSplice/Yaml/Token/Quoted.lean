/-
  YamlSplice.Yaml.Token.Quoted — scalars in quotes.

  Between single quotes a doubled quote stands for one and nothing is escaped. Between double
  quotes a backslash escapes; before a line break it joins the lines. A single line break is read
  as a space and further ones as themselves; spaces and tabs around them are dropped. The mark of
  a document may not start a line inside the quotes.
-/

import YamlSplice.Yaml.Cursor
import YamlSplice.Yaml.Fault
import YamlSplice.Decimal.Numeral

namespace YamlSplice.Yaml.Quoted

/-- The character of an escape of one letter. -/
def escape? : Char → Option Char
  | '0' => some '\x00'
  | 'a' => some '\x07'
  | 'b' => some '\x08'
  | 't' => some '\t'
  | '\t' => some '\t'
  | 'n' => some '\n'
  | 'v' => some '\x0b'
  | 'f' => some '\x0c'
  | 'r' => some '\r'
  | 'e' => some '\x1b'
  | ' ' => some ' '
  | '"' => some '"'
  | '\\' => some '\\'
  | '/' => some '/'
  | 'N' => some '\x85'
  | '_' => some '\xa0'
  | 'L' => some '\u2028'
  | 'P' => some '\u2029'
  | _ => none

/-- The number of hexadecimal digits behind the letter of a code escape. -/
def codeWidth? : Char → Option Nat
  | 'x' => some 2
  | 'u' => some 4
  | 'U' => some 8
  | _ => none

/-- The value of a hexadecimal digit. -/
def hexDigit? (c : Char) : Option Nat := (Decimal.digitValue? c).filter (· < 16)

/-- The value of the first `width` characters as hexadecimal digits, if they all are. -/
def hexCode? (width : Nat) (text : Text) : Option Nat :=
  if text.length < width then none
  else (text.take width).foldlM (fun n c => (hexDigit? c).map (n * 16 + ·)) 0

/-- The character of a code. -/
def codePoint (n : Nat) : Except Fault Char :=
  if n < 0x110000 then .ok (Char.ofNat n)
  else if n < 0x80000000 then .error (.scalar .noValue)
  else .error (.scalar .tooLarge)

/-- Line breaks with spaces and tabs before them, as far as they go: what the breaks stand for. -/
def breaks : Nat → Cursor → Except Fault (Text × Cursor)
  | 0, c => .ok ([], c)
  | fuel + 1, c =>
    if atDocumentMark c.rest then .error .malformed
    else
      let c := c.skipWhile isWhite
      match c.takeBreak with
      | ([], c) => .ok ([], c)
      | (first, c) => do
        let (more, c) ← breaks fuel c
        return (first ++ more, c)

/-- An escape, from behind the backslash. -/
def escape (c : Cursor) : Except Fault (Text × Cursor) :=
  match c.rest with
  | [] => .error .malformed
  | x :: rest =>
    match escape? x, codeWidth? x with
    | some y, _ => .ok ([y], c.next)
    | none, some width =>
      match hexCode? width rest with
      | none => .error .malformed
      | some n => do
        let y ← codePoint n
        return ([y], c.skip (width + 1))
    | none, none =>
      if isBreak x then
        let c := c.takeBreak.2
        breaks (c.rest.length + 1) c
      else .error .malformed

/-- Characters up to white space or the closing quote. -/
def word (double : Bool) : Nat → Cursor → Except Fault (Text × Cursor)
  | 0, c => .ok ([], c)
  | fuel + 1, c =>
    let goOn (read : Text) (c : Cursor) : Except Fault (Text × Cursor) := do
      let (more, c) ← word double fuel c
      return (read ++ more, c)
    match c.rest with
    | [] => .ok ([], c)
    | x :: rest =>
      if isWhite x || isBreak x then .ok ([], c)
      else if x == '\'' then
        if double then goOn ['\''] c.next
        else if rest.head? == some '\'' then goOn ['\''] (c.skip 2)
        else .ok ([], c)
      else if x == '"' then
        if double then .ok ([], c) else goOn ['"'] c.next
      else if x == '\\' && double then do
        let (read, c) ← escape c.next
        goOn read c
      else goOn [x] c.next

/-- White space inside the quotes, as it is read. -/
def gap (c : Cursor) : Except Fault (Text × Cursor) :=
  let (spaces, c) := c.span isWhite
  if c.rest.isEmpty then .error .malformed
  else
    match c.takeBreak with
    | ([], c) => .ok (spaces, c)
    | (first, c) => do
      let (more, c) ← breaks (c.rest.length + 1) c
      if first ≠ ['\n'] then return (first ++ more, c)
      else if more = [] then return ([' '], c)
      else return (more, c)

/-- Words and gaps up to the closing quote, which is passed over. -/
def body (double : Bool) : Nat → Cursor → Except Fault (Text × Cursor)
  | 0, _ => .error .malformed
  | fuel + 1, c => do
    let (read, c) ← word double (c.rest.length + 1) c
    if c.rest.head? = some (if double then '"' else '\'') then return (read, c.next)
    else
      let (space, c) ← gap c
      let (more, c) ← body double fuel c
      return (read ++ space ++ more, c)

/-- A scalar in quotes, from its opening quote on. -/
def scan (double : Bool) (c : Cursor) : Except Fault (Text × Cursor) :=
  body double (c.rest.length + 1) c.next

end YamlSplice.Yaml.Quoted
