/-
  YamlSplice.Value.Equality — when two values are the same, and mappings built by that measure.

  Numbers are the same if they are numerically equal, truth values counting as 0 and 1. Sequences
  of one type are compared item by item, mappings and sets without regard to order. Nothing is the
  same as a float that is not a number, as a foreign value, or as a reference back.
-/

import YamlSplice.Value.Basic
import YamlSplice.Decimal.Shortest

namespace YamlSplice

/-- A number as it is compared: `m · 2^q`, or an infinity. -/
inductive Quantity where
  | finite (m : Int) (q : Int)
  | infinite (negative : Bool)
  deriving DecidableEq, Repr

namespace Quantity

/-- The quantity of a float; nothing if it is not a number. -/
def ofFloat? (x : Float) : Option Quantity :=
  let bits := x.toBits
  let magnitude := bits &&& 0x7FFFFFFFFFFFFFFF
  let negative := bits != magnitude
  if 0x7FF0000000000000 < magnitude then none
  else if magnitude == 0x7FF0000000000000 then some (.infinite negative)
  else
    let b := Decimal.Binary.ofBits magnitude
    some (.finite (if negative then -(b.m : Int) else b.m) b.q)

/-- Numerical equality, exact. -/
def same : Quantity → Quantity → Bool
  | finite m q, finite n r => m * Nat.pow 2 (q - min q r).toNat == n * Nat.pow 2 (r - min q r).toNat
  | infinite a, infinite b => a == b
  | _, _ => false

end Quantity

namespace Value

/-- The number that a value counts as. -/
def quantity? : Value → Option Quantity
  | bool b => some (.finite (if b then 1 else 0) 0)
  | int n => some (.finite n 0)
  | float x => Quantity.ofFloat? x
  | _ => none

/-- Both values are numbers, and equal. -/
def sameNumber (a b : Value) : Bool :=
  match a.quantity?, b.quantity? with
  | some m, some n => m.same n
  | _, _ => false

mutual

/-- The two values are the same, as mapping keys are. -/
def same : Value → Value → Bool
  | null, null => true
  | str a, str b => a == b
  | date a, date b => a == b
  | moment a, moment b => a.same b
  | bytes a, bytes b => a == b
  | list xs, list ys => sameItems xs ys
  | tuple xs, tuple ys => sameItems xs ys
  | map xs, map ys => xs.length == ys.length && sameEntries xs ys
  | set xs, set ys => xs.length == ys.length && sameMembers xs ys
  | a, b => sameNumber a b

/-- The same values in the same order. -/
def sameItems : List Value → List Value → Bool
  | [], [] => true
  | x :: xs, y :: ys => same x y && sameItems xs ys
  | _, _ => false

/-- Every entry on the left is among those on the right. -/
def sameEntries : List (Value × Value) → List (Value × Value) → Bool
  | [], _ => true
  | (k, v) :: rest, ys => ys.any (fun e => same k e.1 && same v e.2) && sameEntries rest ys

/-- Every member on the left is among those on the right. -/
def sameMembers : List Value → List Value → Bool
  | [], _ => true
  | x :: rest, ys => ys.any (fun y => same x y) && sameMembers rest ys

end

/-! ## Entries in order of arrival -/

/-- Writes an entry: the first key of its kind and its place stay, the value is replaced; a new key
    goes to the end. -/
def put (entries : List (Value × Value)) (key value : Value) : List (Value × Value) :=
  match entries with
  | [] => [(key, value)]
  | (k, v) :: rest => if same k key then (k, value) :: rest else (k, v) :: put rest key value

/-- The mapping of a list of pairs. -/
def ofPairs (pairs : List (Value × Value)) : List (Value × Value) :=
  pairs.foldl (fun entries pair => put entries pair.1 pair.2) []

/-- The set of a list of values. -/
def ofMembers (members : List Value) : List Value :=
  members.foldl (fun seen x => if seen.any (same · x) then seen else seen ++ [x]) []

end Value
end YamlSplice
