/-
  YamlSplice.Text.Base64 — bytes as letters, six bits each.

  Writing puts at most 76 letters on a line and ends every line. Reading is lenient: characters
  outside the alphabet are skipped, and it stops at padding that completes a group of four.
-/

import YamlSplice.Text.Basic

namespace YamlSplice.Text.Base64

/-- The 64 letters in the order of their values. -/
def alphabet : Text := "ABCDEFGHIJKLMNOPQRSTUVWXYZabcdefghijklmnopqrstuvwxyz0123456789+/".toList

/-- The letter of a value below 64. -/
def letter (n : Nat) : Char := alphabet.getD n 'A'

/-- The value of a letter. -/
def value? (c : Char) : Option Nat := alphabet.findIdx? (· == c)

/-- Bytes as letters, three to four, the last group filled up with equals signs. -/
def letters : List UInt8 → Text
  | [] => []
  | [a] =>
    let n := a.toNat
    [letter (n / 4), letter (n % 4 * 16), '=', '=']
  | [a, b] =>
    let n := a.toNat * 256 + b.toNat
    [letter (n / 1024), letter (n / 16 % 64), letter (n % 16 * 4), '=']
  | a :: b :: c :: rest =>
    let n := (a.toNat * 256 + b.toNat) * 256 + c.toNat
    letter (n / 262144) :: letter (n / 4096 % 64) :: letter (n / 64 % 64) :: letter (n % 64)
      :: letters rest

/-- Letters broken into lines of at most `width`, each ended by a newline; `room` is what is left
    of the current one. -/
def wrap (width : Nat) : Nat → Text → Text
  | _, [] => ['\n']
  | 0, c :: rest => '\n' :: c :: wrap width (width - 1) rest
  | room + 1, c :: rest => c :: wrap width room rest

/-- Bytes as lines of letters. -/
def encode (bytes : List UInt8) : Text :=
  match bytes with
  | [] => []
  | _ => wrap 76 76 (letters bytes)

/-- Reads on with `held` letters of a group read, `bits` the part of them not yet put out, and
    `pads` equals signs since the last letter. -/
def decodeFrom (held bits pads : Nat) : Text → Option (List UInt8)
  | [] => if held = 0 then some [] else none
  | c :: rest =>
    if c = '=' then
      if 2 ≤ held && 4 ≤ held + pads + 1 then some []
      else decodeFrom held bits (if 2 ≤ held then pads + 1 else pads) rest
    else
      match value? c with
      | none => decodeFrom held bits pads rest
      | some v =>
        match held with
        | 0 => decodeFrom 1 v 0 rest
        | 1 => (decodeFrom 2 (v % 16) 0 rest).map (UInt8.ofNat (bits * 4 + v / 16) :: ·)
        | 2 => (decodeFrom 3 (v % 4) 0 rest).map (UInt8.ofNat (bits * 16 + v / 4) :: ·)
        | _ => (decodeFrom 0 0 0 rest).map (UInt8.ofNat (bits * 64 + v) :: ·)

/-- The bytes that lines of letters stand for, or nothing if a group is left open. -/
def decode? (text : Text) : Option (List UInt8) := decodeFrom 0 0 0 text

end YamlSplice.Text.Base64
