/-
  YamlSplice.Decimal.Notation — how floating-point numbers are written.

  The digits are the fewest that identify the number. They are written positionally if the
  exponent of the leading digit is from -4 to 15, and then always with a point; otherwise with an
  exponent that has a sign and at least two digits.
-/

import YamlSplice.Decimal.Shortest

namespace YamlSplice.Decimal

/-- The exponents of the leading digit that are written positionally. -/
def isPositional (e : Int) : Bool := -4 ≤ e && e < 16

/-- The exponent mark, a sign, and at least two digits. -/
def exponentText (e : Int) : Text :=
  'e' :: (if e < 0 then '-' else '+') :: Text.padded 2 e.natAbs

/-- A decimal without sign, laid out. -/
def Scaled.layout (d : Scaled) : Text :=
  let digits := Text.ofNat d.digits
  let count := digits.length
  let e : Int := d.exp + count - 1
  if d.digits = 0 then ['0', '.', '0']
  else if isPositional e then
    if e < 0 then '0' :: '.' :: List.replicate (-e - 1).toNat '0' ++ digits
    else if (count : Int) ≤ e + 1 then
      digits ++ List.replicate (e + 1 - count).toNat '0' ++ ['.', '0']
    else digits.take (e + 1).toNat ++ '.' :: digits.drop (e + 1).toNat
  else
    match digits with
    | [] => []
    | first :: [] => first :: exponentText e
    | first :: more => first :: '.' :: more ++ exponentText e

/-- A floating-point number, written. -/
def ofFloat (x : Float) : Text :=
  let bits := x.toBits
  let magnitude := bits &&& 0x7FFFFFFFFFFFFFFF
  let sign : Text := if bits == magnitude then [] else ['-']
  if 0x7FF0000000000000 < magnitude then "nan".toList
  else if magnitude == 0x7FF0000000000000 then sign ++ "inf".toList
  else sign ++ (Binary.ofBits magnitude).select.layout

end YamlSplice.Decimal
