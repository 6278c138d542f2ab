/-
  YamlSplice.Decimal.Shortest — the fewest decimal digits that identify a floating-point number.

  A finite number is m · 2^q. For one, two, … seventeen digits the two neighbours of the number on that
  decimal grid are tried: the first grid with a neighbour that is read as the number wins, of two such
  the nearer, of two equally near the even one.
-/

import YamlSplice.Decimal.Nearest

namespace YamlSplice.Decimal

/-- A finite number without its sign: `m · 2^q`. -/
structure Binary where
  m : Nat
  q : Int
  deriving DecidableEq, Repr

/-- A decimal number without its sign: `digits · 10^exp`. -/
structure Scaled where
  digits : Nat
  exp : Int
  deriving DecidableEq, Repr

/-- The magnitude that the bits of a finite number hold. -/
def Binary.ofBits (bits : UInt64) : Binary :=
  let exponent := ((bits >>> 52) &&& 0x7FF).toNat
  let fraction := (bits &&& 0xFFFFFFFFFFFFF).toNat
  if exponent = 0 then ⟨fraction, -1074⟩ else ⟨0x10000000000000 + fraction, (exponent : Int) - 1075⟩

/-- The bits of the number. -/
def Binary.bits (x : Binary) : Nat := (x.q + 1074).toNat * 0x10000000000000 + x.m

/-- The decimal is read as `x`. -/
def Binary.readsBack (x : Binary) (d : Scaled) : Bool := scaledBits d.digits d.exp == x.bits

/-- `x` divided by `10^g`, as a quotient of natural numbers. -/
def Binary.scaled (x : Binary) (g : Int) : Nat × Nat :=
  (x.m * Nat.pow 2 x.q.toNat * Nat.pow 10 (-g).toNat, Nat.pow 10 g.toNat * Nat.pow 2 (-x.q).toNat)

/-- The neighbour of `x` on the grid of step `10^g` that reads back, the nearer of two. -/
def Binary.onGrid? (x : Binary) (g : Int) : Option Scaled :=
  let (num, den) := x.scaled g
  let low : Scaled := ⟨num / den, g⟩
  let high : Scaled := ⟨num / den + 1, g⟩
  match x.readsBack low, x.readsBack high with
  | false, false => none
  | true, false => some low
  | false, true => some high
  | true, true =>
    match compare (2 * num) ((2 * (num / den) + 1) * den) with
    | .lt => some low
    | .gt => some high
    | .eq => some (if (num / den) % 2 = 0 then low else high)

/-- `a · 10^i` against `n · 2^j`, exactly. -/
def compareScaled (a : Nat) (i : Int) (n : Nat) (j : Int) : Ordering :=
  compare (a * Nat.pow 10 i.toNat * Nat.pow 2 (-j).toNat) (n * Nat.pow 2 j.toNat * Nat.pow 10 (-i).toNat)

/-- The least `k`, of the few from `k` on, with `x < 10^k`. -/
def Binary.scaleFrom (x : Binary) : Nat → Int → Int
  | 0, k => k
  | steps + 1, k => if compareScaled 1 k x.m x.q == .gt then k else x.scaleFrom steps (k + 1)

/-- The least `k` with `x < 10^k`, for `x` not zero; 1233/4096 is log₁₀ 2 to four places. -/
def Binary.scale (x : Binary) : Int :=
  x.scaleFrom 5 (Int.fdiv ((x.q + (x.m.log2 : Int)) * 1233) 4096 - 1)

/-- The exact value as a decimal. -/
def Binary.exact (x : Binary) : Scaled :=
  if 0 ≤ x.q then ⟨x.m * Nat.pow 2 x.q.toNat, 0⟩ else ⟨x.m * Nat.pow 5 (-x.q).toNat, x.q⟩

/-- Moves trailing zeros of the digits into the exponent. -/
def stripZeros : Nat → Scaled → Scaled
  | 0, d => d
  | fuel + 1, d =>
    if d.digits ≠ 0 ∧ d.digits % 10 = 0 then stripZeros fuel ⟨d.digits / 10, d.exp + 1⟩ else d

/-- The shortest decimal that reads back as `x`, without trailing zeros. -/
def Binary.select (x : Binary) : Scaled :=
  if x.m = 0 then ⟨0, 0⟩
  else
    let k := x.scale
    let found := (List.range' 1 17).findSome? fun (n : Nat) => x.onGrid? (k - (n : Int))
    stripZeros 20 (found.getD x.exact)

end YamlSplice.Decimal
