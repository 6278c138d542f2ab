/-
  YamlSplice.Decimal.Nearest — the floating-point number nearest to a decimal.

  Sizes are counted in units of the smallest positive number, 2^-1074. Up to 2^53 units every natural
  number of them is a floating-point number; from there on each doubling of the size doubles the step
  to the next one. The bits of a positive number count the steps that lead up to it, so that a size
  rounded up to the next doubling has the right bits as well.
-/

import YamlSplice.Text.Basic

namespace YamlSplice.Decimal

/-- The natural number nearest to `n / d`, of two equally near the even one. -/
def nearestNat (n d : Nat) : Nat :=
  match compare (2 * (n % d)) d with
  | .lt => n / d
  | .eq => n / d + n / d % 2
  | .gt => n / d + 1

/-- The bits of the number nearest to `n / d` units, as if the exponents had no end. -/
def nearestBits (n d : Nat) : Nat :=
  let doublings := (n / d).log2 - 52
  doublings * 0x10000000000000 + nearestNat n (d * Nat.pow 2 doublings)

/-- The bits of positive infinity, which stand behind those of the largest number. -/
def infinityBits : Nat := 0x7FF0000000000000

/-- The places behind the binary point that a unit stands at. -/
def unitPlaces : Nat := 1074

/-- One, in units. -/
def oneUnits : Nat := 1 <<< unitPlaces

/-- The bits of the number nearest to `m · 10^e`; far outside the range the answer is zero or infinity
    without computing the power. -/
def scaledBits (m : Nat) (e : Int) : Nat :=
  if m = 0 then 0
  else if 400 < e then infinityBits
  else if e + m.log2 < -1100 then 0
  else min infinityBits (nearestBits (m * Nat.pow 10 e.toNat * oneUnits) (Nat.pow 10 (-e).toNat))

/-- The number `m · 10^e` to the nearest floating-point number. -/
def scaledFloat (m : Nat) (e : Int) : Float := Float.ofBits (UInt64.ofNat (scaledBits m e))

end YamlSplice.Decimal
