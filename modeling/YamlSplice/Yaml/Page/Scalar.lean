/-
  YamlSplice.Yaml.Page.Scalar — scalars on a page, in each style.

  Where a scalar may be folded, a line that is too long is broken at a single space between words.
  Between double quotes it may be broken at any space, or next to an escape; a backslash shows that
  the break does not count. In single quotes line breaks of the text are doubled.
  - `flatMap_ofText`: the runs of a text are the text.
-/

import YamlSplice.Yaml.Page.Basic
import YamlSplice.Yaml.Style
import YamlSplice.Text.Quoted

namespace YamlSplice.Yaml

/-- A run of characters of one kind. -/
inductive Piece where
  | word (text : Text)
  | gap (count : Nat)
  | breaks (text : Text)
  deriving DecidableEq, Repr

namespace Piece

/-- The runs of a text with one character in front. -/
def cons (c : Char) (pieces : List Piece) : List Piece :=
  if c == ' ' then
    match pieces with
    | gap n :: more => gap (n + 1) :: more
    | more => gap 1 :: more
  else if Style.isKept c then
    match pieces with
    | breaks text :: more => breaks (c :: text) :: more
    | more => breaks [c] :: more
  else
    match pieces with
    | word text :: more => word (c :: text) :: more
    | more => word [c] :: more

/-- The runs of a text. -/
def ofText (text : Text) : List Piece := text.foldr cons []

/-- The characters of a run. -/
def text : Piece → Text
  | word s => s
  | gap n => List.replicate n ' '
  | breaks s => s

theorem flatMap_cons (c : Char) (pieces : List Piece) :
    (cons c pieces).flatMap text = c :: pieces.flatMap text := by
  unfold cons
  split
  · next h =>
    have hc : c = ' ' := by simpa using h
    split <;> simp [text, hc, List.replicate_succ]
  · split <;> split <;> simp [text]

theorem flatMap_ofText (s : Text) : (ofText s).flatMap text = s := by
  induction s with
  | nil => rfl
  | cons c rest ih => rw [ofText, List.foldr_cons, flatMap_cons, ← ofText, ih]

end Piece

namespace Page

/-! ## Plain scalars and single quotes -/

/-- A gap is where a line may be broken: it is a single space, and the line is too long. -/
def mayFold (p : Page) (fold : Bool) (count : Nat) : Bool := fold && count == 1 && width < p.column

/-- The runs of a plain scalar, which has no line breaks. -/
def plainPieces (fold : Bool) (indent : Nat) (p : Page) : List Piece → Page
  | [] => p
  | .word text :: rest => plainPieces fold indent (p.put text) rest
  | .gap count :: rest =>
    let p :=
      if p.mayFold fold count then (p.indentTo indent).afterText else p.put (List.replicate count ' ')
    plainPieces fold indent p rest
  | .breaks text :: rest => plainPieces fold indent (p.put text) rest

/-- A plain scalar. -/
def plain (p : Page) (fold : Bool) (indent : Nat) (text : Text) : Page :=
  if text.isEmpty then p
  else plainPieces fold indent (if p.spaced then p else p.put [' ']).afterText (Piece.ofText text)

/-- Line breaks of a text in single quotes: a newline is written once more than it counts. -/
def quotedBreaks (p : Page) (indent : Nat) (text : Text) : Page :=
  let p := if text.head? == some '\n' then p.breakLine '\n' else p
  (text.foldl breakLine p).indentTo indent

/-- The runs of a text in single quotes; a gap at either end stays. -/
def singlePieces (fold : Bool) (indent : Nat) (first : Bool) (p : Page) : List Piece → Page
  | [] => p
  | .word text :: rest =>
    let doubled := text.flatMap fun c => if c == '\'' then ['\'', '\''] else [c]
    singlePieces fold indent false (p.put doubled) rest
  | .gap count :: rest =>
    let p :=
      if p.mayFold (fold && !first && !rest.isEmpty) count then p.indentTo indent
      else p.put (List.replicate count ' ')
    singlePieces fold indent false p rest
  | .breaks text :: rest => singlePieces fold indent false (p.quotedBreaks indent text) rest

/-- A scalar in single quotes. -/
def single (p : Page) (fold : Bool) (indent : Nat) (text : Text) : Page :=
  (singlePieces fold indent true (p.sign ['\'']) (Piece.ofText text)).close ['\'']

/-! ## Double quotes -/

/-- The character stands for itself between double quotes. -/
def isBare (c : Char) : Bool :=
  let n := c.toNat
  c != '"' && c != '\\' && n != 0xFEFF && !(n == 0x2028 || n == 0x2029)
    && ((0x20 ≤ n && n ≤ 0x7E) || (0xA0 ≤ n && n ≤ 0xD7FF) || (0xE000 ≤ n && n ≤ 0xFFFD))

/-- The letters of the escapes that have one. -/
def escapeLetters : List (Char × Char) :=
  [('\x00', '0'), ('\x07', 'a'), ('\x08', 'b'), ('\t', 't'), ('\n', 'n'), ('\x0b', 'v'),
    ('\x0c', 'f'), ('\r', 'r'), ('\x1b', 'e'), ('"', '"'), ('\\', '\\'), ('\x85', 'N'),
    ('\u2028', 'L'), ('\u2029', 'P')]

/-- The escape of a character: by its letter, or by its code in two, four or eight digits. -/
def escaped (c : Char) : Text :=
  let n := c.toNat
  match escapeLetters.find? (·.1 == c) with
  | some (_, letter) => ['\\', letter]
  | none =>
    if n ≤ 0xFF then '\\' :: 'x' :: capitals 2 n
    else if n ≤ 0xFFFF then '\\' :: 'u' :: capitals 4 n
    else '\\' :: 'U' :: capitals 8 n
where
  /-- The last `places` hexadecimal digits, with capital letters. -/
  capitals (places n : Nat) : Text := (Text.hex places n).map Char.toUpper

/-- Breaks a line between double quotes; a space at the start of the next is escaped. -/
def foldQuoted (p : Page) (indent : Nat) (spaceNext : Bool) : Page :=
  let p := ((p.put ['\\']).indentTo indent).afterText
  if spaceNext then p.put ['\\'] else p

/-- The characters of a text in double quotes; `first` says that none was written yet, `fresh` that
    the last was escaped. -/
def doubleChars (fold : Bool) (indent : Nat) (first fresh : Bool) (p : Page) : Text → Page
  | [] => p
  | c :: rest =>
    let inside := fold && !first && !rest.isEmpty
    if isBare c then
      let p := if inside && (c == ' ' || fresh) && width < p.column then p.foldQuoted indent (c == ' ') else p
      doubleChars fold indent false false (p.put [c]) rest
    else
      let p := p.put (escaped c)
      let p := if inside && width + 1 < p.column then p.foldQuoted indent (rest.head? == some ' ') else p
      doubleChars fold indent false true p rest

/-- A scalar in double quotes. -/
def double (p : Page) (fold : Bool) (indent : Nat) (text : Text) : Page :=
  (doubleChars fold indent true false (p.sign ['"']) text).close ['"']

/-! ## Literal blocks -/

/-- The lines of a literal block. -/
def literalLines (p : Page) (indent : Nat) : List Text → Page
  | [] => p
  | line :: rest => literalLines (((p.indentTo indent).put line).breakLine '\n') indent rest

/-- A literal block of a text whose lines all end and none of which is empty. -/
def literal (p : Page) (indent : Nat) (text : Text) : Page :=
  literalLines ((p.sign ['|']).breakLine '\n') indent (Text.lines (Text.dropTrailingNewlines text))

/-- A scalar in a style; keys are not folded. -/
def scalar (p : Page) (style : Style) (key : Bool) (indent : Nat) (text : Text) : Page :=
  match style with
  | .plain => p.plain (!key) indent text
  | .single => p.single (!key) indent text
  | .double => p.double (!key) indent text
  | .literal => p.literal indent text

end Page
end YamlSplice.Yaml
