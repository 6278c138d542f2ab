/-
  YamlSplice.Yaml.Token.Lexer — a text as tokens.

  A token that may turn out to be a simple key is remembered; a colon on the same line within 1024
  characters makes it one, and its key token is put in front of it then. Until this is settled
  nothing from that token on is settled. So a scan that fails ends the tokens before the first
  undecided key.

  Tokens are kept newest first. A pending key knows how many tokens stand before it, so that its
  key token can be put in place; one key may be pending on each level of flow collections.
-/

import YamlSplice.Yaml.Token.Quoted
import YamlSplice.Yaml.Token.Block
import YamlSplice.Yaml.Token.Plain
import YamlSplice.Yaml.Token.Name

namespace YamlSplice.Yaml

/-- A token that may be a simple key. -/
structure PendingKey where
  /-- The number of tokens before it. -/
  position : Nat
  /-- It stands where a block mapping needs a key. -/
  required : Bool
  index : Nat
  line : Nat
  column : Nat
  deriving DecidableEq, Repr

structure Lexer where
  cursor : Cursor
  /-- The tokens so far, newest first. -/
  tokens : List Token := []
  count : Nat := 0
  /-- The column of the innermost block collection, -1 if there is none. -/
  indent : Int := -1
  /-- The columns of the block collections around it. -/
  outerIndents : List Int := []
  /-- A simple key may start here. -/
  keyAllowed : Bool := true
  /-- The key pending on the present level. -/
  key : Option PendingKey := none
  /-- The keys pending on the levels around it, one for each flow collection. -/
  outerKeys : List (Option PendingKey) := []
  deriving DecidableEq, Repr

/-- The tokens of a text, and why they end too early if they do. -/
structure Tokens where
  list : List Token
  fault : Option Fault
  deriving DecidableEq, Repr

namespace Lexer

/-- The cursor is inside a flow collection. -/
def inFlow (s : Lexer) : Bool := !s.outerKeys.isEmpty

def emit (s : Lexer) (t : Token) : Lexer := { s with tokens := t :: s.tokens, count := s.count + 1 }

/-- Puts a token behind the first `position`. -/
def insertAt (s : Lexer) (position : Nat) (t : Token) : Lexer :=
  let newer := s.count - position
  { s with tokens := s.tokens.take newer ++ t :: s.tokens.drop newer, count := s.count + 1 }

/-! ## Pending keys -/

/-- The key can no longer be one. -/
def isStale (s : Lexer) (k : PendingKey) : Bool :=
  k.line != s.cursor.line || 1024 < s.cursor.index - k.index

/-- Gives up a key that can no longer be one, which a required key may not. -/
def dropIfStale (s : Lexer) (k : Option PendingKey) : Except Fault (Option PendingKey) :=
  match k with
  | none => .ok none
  | some k => if s.isStale k then (if k.required then .error .malformed else .ok none) else .ok (some k)

def dropStale (s : Lexer) : Except Fault Lexer := do
  let key ← s.dropIfStale s.key
  let outerKeys ← s.outerKeys.mapM s.dropIfStale
  return { s with key, outerKeys }

/-- Gives up the key pending on the present level. -/
def dropKey (s : Lexer) : Except Fault Lexer :=
  if s.key.any (·.required) then .error .malformed else .ok { s with key := none }

/-- Remembers that the next token may be a simple key. -/
def saveKey (s : Lexer) : Except Fault Lexer :=
  if s.keyAllowed then do
    let c := s.cursor
    let required := !s.inFlow && s.indent == c.column
    let s ← s.dropKey
    return { s with key := some ⟨s.count, required, c.index, c.line, c.column⟩ }
  else .ok s

/-- The number of tokens before the first pending key. -/
def settled (s : Lexer) : Nat :=
  (s.key :: s.outerKeys).foldl (fun n k => (k.map (min n ·.position)).getD n) s.count

/-! ## Indentation -/

/-- Closes the block collections to the right of a column. -/
def closeBlocks (column : Int) : List Int → Lexer → Lexer
  | [], s => s
  | outer :: more, s =>
    if column < s.indent then
      closeBlocks column more { s.emit .blockEnd with indent := outer, outerIndents := more }
    else s

/-- Closes the block collections to the right of a column, outside flow collections. -/
def unwind (s : Lexer) (column : Int) : Lexer :=
  if s.inFlow then s else closeBlocks column s.outerIndents s

/-- Opens a block collection at a column, if it is to the right of the present one; `true` says that
    it was opened. -/
def indentTo (s : Lexer) (column : Int) : Bool × Lexer :=
  if s.indent < column then (true, { s with indent := column, outerIndents := s.indent :: s.outerIndents })
  else (false, s)

/-- Opens a block collection at the cursor with its token, if need be. -/
def openBlock (s : Lexer) (t : Token) : Lexer :=
  match s.indentTo s.cursor.column with
  | (true, s) => s.emit t
  | (false, s) => s

/-! ## Tokens -/

/-- Spaces, comments and line breaks; `true` says that a line break was passed over. -/
def skipLines : Nat → Cursor → Cursor × Bool
  | 0, c => (c, false)
  | fuel + 1, c =>
    let c := c.skipSpaces.skipComment
    match c.takeBreak with
    | ([], c) => (c, false)
    | (_, c) => ((skipLines fuel c).1, true)

/-- Moves to the next token. Outside flow collections a simple key may start behind a line break. -/
def skipToToken (s : Lexer) : Lexer :=
  let c := s.cursor
  let c := if c.index == 0 && c.rest.head? == some '\uFEFF' then c.next else c
  let (c, broken) := skipLines (c.rest.length + 1) c
  { s with cursor := c, keyAllowed := s.keyAllowed || (broken && !s.inFlow) }

/-- A token of `n` characters. -/
def take (s : Lexer) (n : Nat) (t : Token) : Lexer := { s.emit t with cursor := s.cursor.skip n }

/-- The end of the text closes everything. -/
def streamEnd (s : Lexer) : Except Fault Lexer := do
  let s ← (s.unwind (-1)).dropKey
  return { s.emit .streamEnd with keyAllowed := false }

def directive (s : Lexer) : Except Fault Lexer := do
  let s ← (s.unwind (-1)).dropKey
  let (d, cursor) ← Name.directive s.cursor
  return { s.emit (.directive d) with cursor, keyAllowed := false }

/-- The mark of a document. -/
def documentMark (s : Lexer) (t : Token) : Except Fault Lexer := do
  let s ← (s.unwind (-1)).dropKey
  return { s.take 3 t with keyAllowed := false }

/-- A flow collection may be a simple key, and one may start inside it. -/
def flowStart (s : Lexer) (t : Token) : Except Fault Lexer := do
  let s ← s.saveKey
  return { s.take 1 t with keyAllowed := true, key := none, outerKeys := s.key :: s.outerKeys }

/-- The end of a flow collection; where none is open, no reader of the tokens gets beyond it. -/
def flowEnd (s : Lexer) (t : Token) : Except Fault Lexer := do
  let s ← s.dropKey
  match s.outerKeys with
  | [] => return { s.take 1 t with keyAllowed := false }
  | key :: outerKeys => return { s.take 1 t with keyAllowed := false, key, outerKeys }

def flowEntry (s : Lexer) : Except Fault Lexer := do
  let s ← s.dropKey
  return { s.take 1 .flowEntry with keyAllowed := true }

/-- An entry of a block sequence, which it opens if need be. -/
def blockEntry (s : Lexer) : Except Fault Lexer := do
  if !s.inFlow && !s.keyAllowed then throw .malformed
  let s := if s.inFlow then s else s.openBlock .blockSequenceStart
  let s ← s.dropKey
  return { s.take 1 .blockEntry with keyAllowed := true }

/-- A key marked by a question mark. -/
def explicitKey (s : Lexer) : Except Fault Lexer := do
  if !s.inFlow && !s.keyAllowed then throw .malformed
  let s := if s.inFlow then s else s.openBlock .blockMappingStart
  let s ← s.dropKey
  return { s.take 1 .key with keyAllowed := !s.inFlow }

/-- A colon: it makes the pending key one, or belongs to a marked key. -/
def value (s : Lexer) : Except Fault Lexer := do
  match s.key with
  | some k =>
    let s := { s.insertAt k.position .key with key := none }
    let s :=
      if s.inFlow then s
      else
        match s.indentTo k.column with
        | (true, s) => s.insertAt k.position .blockMappingStart
        | (false, s) => s
    return { s.take 1 .value with keyAllowed := false }
  | none =>
    if !s.inFlow && !s.keyAllowed then throw .malformed
    let s := if s.inFlow then s else s.openBlock .blockMappingStart
    return { s.take 1 .value with keyAllowed := !s.inFlow }

/-- A token that may be a simple key, and behind which none can start. -/
def node (s : Lexer) (scan : Cursor → Except Fault (Token × Cursor)) : Except Fault Lexer := do
  let s ← s.saveKey
  let (t, cursor) ← scan s.cursor
  return { s.emit t with cursor, keyAllowed := false }

def aliasOrAnchor (s : Lexer) (token : Text → Token) : Except Fault Lexer :=
  s.node fun c => (Name.anchor c).map fun (name, c) => (token name, c)

def tag (s : Lexer) : Except Fault Lexer :=
  s.node fun c => (Name.tag c).map fun (handle, suffix, c) => (.tag handle suffix, c)

def quotedScalar (s : Lexer) (double : Bool) : Except Fault Lexer :=
  s.node fun c => (Quoted.scan double c).map fun (text, c) => (.scalar text false, c)

/-- A simple key may follow a block scalar. -/
def blockScalar (s : Lexer) (folded : Bool) : Except Fault Lexer := do
  let s ← s.dropKey
  let (text, cursor) ← Block.scan folded s.indent s.cursor
  return { s.emit (.scalar text false) with cursor, keyAllowed := true }

/-- A simple key may follow a plain scalar that ended behind a line break. -/
def plainScalar (s : Lexer) : Except Fault Lexer := do
  let s ← s.saveKey
  let (text, cursor, broken) := Plain.scan s.inFlow (s.indent + 1) (s.cursor.rest.length + 1) s.cursor
  return { s.emit (.scalar text true) with cursor, keyAllowed := broken }

/-- A plain scalar may start with `c`, which `rest` follows. -/
def startsPlain (s : Lexer) (c : Char) (rest : Text) : Bool :=
  let sign := isWhite c || isBreak c || "-?:,[]\x7b\x7d#&*!|>'\"%@".toList.contains c || c.toNat == 0x60
  !sign || (!atWhite rest && (c == '-' || (!s.inFlow && (c == '?' || c == ':'))))

/-- Moves to the next token and closes the block collections to the right of it. -/
def approach (s : Lexer) : Except Fault Lexer := do
  let s ← s.skipToToken.dropStale
  return s.unwind s.cursor.column

/-- The token at the cursor; the end of the text brings along those that close everything. -/
def token (s : Lexer) : Except Fault Lexer :=
  let text := s.cursor.rest
  let atMargin := s.cursor.column == 0
  match text with
  | [] => s.streamEnd
  | c :: rest =>
    if c == '%' && atMargin then s.directive
    else if atMargin && atMark '-' text then s.documentMark .documentStart
    else if atMargin && atMark '.' text then s.documentMark .documentEnd
    else if c == '[' then s.flowStart .flowSequenceStart
    else if c == '\x7b' then s.flowStart .flowMappingStart
    else if c == ']' then s.flowEnd .flowSequenceEnd
    else if c == '\x7d' then s.flowEnd .flowMappingEnd
    else if c == ',' then s.flowEntry
    else if c == '-' && atWhite rest then s.blockEntry
    else if c == '?' && (s.inFlow || atWhite rest) then s.explicitKey
    else if c == ':' && (s.inFlow || atWhite rest) then s.value
    else if c == '*' then s.aliasOrAnchor .alias
    else if c == '&' then s.aliasOrAnchor .anchor
    else if c == '!' then s.tag
    else if c == '|' && !s.inFlow then s.blockScalar false
    else if c == '>' && !s.inFlow then s.blockScalar true
    else if c == '\'' then s.quotedScalar false
    else if c == '"' then s.quotedScalar true
    else if s.startsPlain c rest then s.plainScalar
    else throw .malformed

/-- The next token, with those that indentation and the end of the text bring along. -/
def fetch (s : Lexer) : Except Fault Lexer := do
  let s ← s.approach
  s.token

/-- All tokens. Each step ends the text or passes over a character. -/
def run : Nat → Lexer → Tokens
  | 0, s => ⟨s.tokens.reverse, some .malformed⟩
  | fuel + 1, s =>
    match s.dropStale with
    | .error fault => ⟨s.tokens.reverse, some fault⟩
    | .ok s =>
      match s.fetch with
      | .error fault => ⟨(s.tokens.drop (s.count - s.settled)).reverse, some fault⟩
      | .ok next => if next.tokens.head? == some .streamEnd then ⟨next.tokens.reverse, none⟩ else run fuel next

end Lexer

/-- The tokens of a text. -/
def Tokens.ofText (text : Text) : Tokens :=
  if text.all isAllowed then Lexer.run (text.length + 2) { cursor := { rest := text } }
  else ⟨[], some .malformed⟩

end YamlSplice.Yaml
