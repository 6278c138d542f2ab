/-
  YamlSplice.Text.Quoted — text and bytes in quotes, as messages show them.

  The quote is an apostrophe, or a quotation mark if the content holds an apostrophe and no
  quotation mark. A backslash, the quote, tab, newline and carriage return have an escape of one
  letter; what is not printable is written with two, four or eight hexadecimal digits.
-/

import YamlSplice.Text.Printable

namespace YamlSplice.Text

/-- The small hexadecimal digit of a value below sixteen. -/
def hexDigit (n : Nat) : Char := if n < 10 then Char.ofNat (48 + n) else Char.ofNat (87 + n)

/-- The last `width` hexadecimal digits of a number. -/
def hex : Nat → Nat → Text
  | 0, _ => []
  | width + 1, n => hex width (n / 16) ++ [hexDigit (n % 16)]

/-- The quote for a content. -/
def quoteFor (content : Text) : Char :=
  if content.contains '\'' && !content.contains '"' then '"' else '\''

/-- Escapes shared by text and bytes. -/
def shortEscape? (quote c : Char) : Option Text :=
  if c = quote || c = '\\' then some ['\\', c]
  else if c = '\n' then some ['\\', 'n']
  else if c = '\t' then some ['\\', 't']
  else if c = '\r' then some ['\\', 'r']
  else none

/-- One character inside quotes. -/
def quoteChar (quote c : Char) : Text :=
  match shortEscape? quote c with
  | some escape => escape
  | none =>
    if isPrintable c then [c]
    else if c.toNat < 0x100 then '\\' :: 'x' :: hex 2 c.toNat
    else if c.toNat < 0x10000 then '\\' :: 'u' :: hex 4 c.toNat
    else '\\' :: 'U' :: hex 8 c.toNat

/-- A text in quotes. -/
def quoted (text : Text) : Text :=
  let quote := quoteFor text
  quote :: text.flatMap (quoteChar quote) ++ [quote]

/-- One byte inside quotes; bytes above the tilde are never shown as they are. -/
def quoteByte (quote : Char) (b : UInt8) : Text :=
  let c := Char.ofNat b.toNat
  match shortEscape? quote c with
  | some escape => escape
  | none => if 0x20 ≤ b.toNat && b.toNat < 0x7F then [c] else '\\' :: 'x' :: hex 2 b.toNat

/-- Bytes in quotes, behind the letter b. -/
def quotedBytes (bytes : List UInt8) : Text :=
  let quote := quoteFor (bytes.map fun b => Char.ofNat b.toNat)
  'b' :: quote :: bytes.flatMap (quoteByte quote) ++ [quote]

end YamlSplice.Text
