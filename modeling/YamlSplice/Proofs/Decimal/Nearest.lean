/-
  YamlSplice.Proofs.Decimal.Nearest — rounding depends on the number alone, and keeps the shortest decimal.

  A decimal is rounded as a quotient of natural numbers. Which quotient stands for the number does not
  matter (`nearestBits_congr`), and the exponents far outside the range get what the quotient would give
  (`scaledBits_eq`). So zeros may move between the digits and the exponent (`scaledBits_shift`).
  - `scaledBits_exact`: the exact value of a floating-point number is rounded to the number.
  - `scaledBits_select`: so is the shortest decimal that is selected for it.
-/

import Mathlib.Tactic.GCongr
import Mathlib.Tactic.Positivity
import Mathlib.Tactic.Ring
import YamlSplice.Decimal.Shortest

namespace YamlSplice.Decimal

/-! ## Rounding a quotient -/

theorem nearestNat_mul_right (n d : Nat) {c : Nat} (hc : 0 < c) : nearestNat (n * c) (d * c) = nearestNat n d := by
  have hcompare : compare (2 * (n % d * c)) (d * c) = compare (2 * (n % d)) d := by
    rw [← Nat.mul_assoc]
    rcases Nat.lt_trichotomy (2 * (n % d)) d with hlt | heq | hgt
    · rw [Nat.compare_eq_lt.mpr hlt, Nat.compare_eq_lt.mpr (Nat.mul_lt_mul_of_pos_right hlt hc)]
    · rw [heq]
      simp
    · rw [Nat.compare_eq_gt.mpr hgt, Nat.compare_eq_gt.mpr (Nat.mul_lt_mul_of_pos_right hgt hc)]
  simp only [nearestNat, Nat.mul_mod_mul_right, Nat.mul_div_mul_right _ _ hc, hcompare]

theorem nearestNat_one (n : Nat) : nearestNat n 1 = n := by
  simp [nearestNat, Nat.mod_one, Nat.compare_eq_lt.mpr Nat.one_pos]

theorem nearestBits_mul_right (n d : Nat) {c : Nat} (hc : 0 < c) : nearestBits (n * c) (d * c) = nearestBits n d := by
  simp only [nearestBits, Nat.mul_div_mul_right _ _ hc]
  rw [Nat.mul_right_comm, nearestNat_mul_right _ _ hc]

/-- Quotients of one value are rounded alike. -/
theorem nearestBits_congr {n d n' d' : Nat} (hd : 0 < d) (hd' : 0 < d') (h : n * d' = n' * d) :
    nearestBits n d = nearestBits n' d' := by
  calc nearestBits n d = nearestBits (n * d') (d * d') := (nearestBits_mul_right n d hd').symm
    _ = nearestBits (n' * d) (d' * d) := by rw [h, Nat.mul_comm d d']
    _ = nearestBits n' d' := nearestBits_mul_right n' d' hd

/-- Less than half a unit is rounded to zero. -/
theorem nearestBits_small {n d : Nat} (h : 2 * n < d) : nearestBits n d = 0 := by
  have hdiv : n / d = 0 := Nat.div_eq_of_lt (by omega)
  have hmod : n % d = n := Nat.mod_eq_of_lt (by omega)
  simp [nearestBits, nearestNat, hdiv, hmod, Nat.compare_eq_lt.mpr h]

/-- A size that has been doubled 2047 times is infinite. -/
theorem infinityBits_le {n k : Nat} (hk : 2099 ≤ k) (h : 2 ^ k ≤ n) : infinityBits ≤ nearestBits n 1 := by
  have hpos : n ≠ 0 := ((Nat.two_pow_pos k).trans_le h).ne'
  have hlog : k ≤ n.log2 := (Nat.le_log2 hpos).mpr h
  simp only [nearestBits, Nat.div_one, infinityBits]
  omega

/-- A floating-point number of `m · 2^s` units is rounded to itself. -/
theorem nearestBits_exact {m s : Nat} (hm : m < 2 ^ 53) (hs : s = 0 ∨ 2 ^ 52 ≤ m) :
    nearestBits (m * 2 ^ s) 1 = s * 0x10000000000000 + m := by
  have hdoublings : (m * 2 ^ s).log2 - 52 = s := by
    rcases hs with rfl | hs
    · rcases Nat.eq_zero_or_pos m with rfl | hpos
      · simp
      · have hlog : m.log2 < 53 := (Nat.log2_lt (by omega)).mpr hm
        simp only [Nat.pow_zero, Nat.mul_one]
        omega
    · have hlog : (m * 2 ^ s).log2 = 52 + s := by
        have hpos : m * 2 ^ s ≠ 0 := Nat.mul_ne_zero (by omega) (by positivity)
        refine (Nat.log2_eq_iff hpos).mpr ⟨?_, ?_⟩
        · rw [Nat.pow_add]
          exact Nat.mul_le_mul_right _ hs
        · rw [Nat.add_right_comm, Nat.pow_add]
          exact Nat.mul_lt_mul_of_pos_right hm (by positivity)
      omega
  simp only [nearestBits, Nat.div_one, hdoublings, Nat.pow_eq]
  rw [nearestNat_mul_right m 1 (by positivity), nearestNat_one]

/-! ## Decimals -/

theorem oneUnits_eq : oneUnits = 2 ^ unitPlaces := Nat.one_shiftLeft unitPlaces

theorem oneUnits_pos : 0 < oneUnits := by
  rw [oneUnits_eq]
  positivity

theorem pow_mul_oneUnits (k : Nat) : 2 ^ k * oneUnits = 2 ^ (k + unitPlaces) := by rw [oneUnits_eq, Nat.pow_add]

/-- The answers far outside the range are those of the quotient. -/
theorem scaledBits_eq (m : Nat) (e : Int) :
    scaledBits m e = min infinityBits (nearestBits (m * 10 ^ e.toNat * oneUnits) (10 ^ (-e).toNat)) := by
  have hten : 0 < 10 ^ (-e).toNat := by positivity
  unfold scaledBits
  split
  · next hm =>
    have hzero : 2 * (m * 10 ^ e.toNat * oneUnits) < 10 ^ (-e).toNat := by
      rw [hm, Nat.zero_mul, Nat.zero_mul]
      exact hten
    rw [nearestBits_small hzero, Nat.min_zero]
  split
  · next hm he =>
    have hwhole : (-e).toNat = 0 := by omega
    have hlarge : 2 ^ (3 * e.toNat + unitPlaces) ≤ m * 10 ^ e.toNat * oneUnits :=
      calc 2 ^ (3 * e.toNat + unitPlaces) = 8 ^ e.toNat * oneUnits := by rw [← pow_mul_oneUnits, Nat.pow_mul]
        _ ≤ 10 ^ e.toNat * oneUnits := Nat.mul_le_mul_right _ (Nat.pow_le_pow_left (by decide) _)
        _ ≤ m * 10 ^ e.toNat * oneUnits :=
          Nat.mul_le_mul_right _ (Nat.le_mul_of_pos_left _ (Nat.pos_of_ne_zero hm))
    rw [hwhole, Nat.pow_zero, Nat.min_eq_left (infinityBits_le (by unfold unitPlaces; omega) hlarge)]
  split
  · next hm _ he =>
    have hwhole : e.toNat = 0 := by omega
    have hsmall : 2 * (m * 10 ^ e.toNat * oneUnits) < 10 ^ (-e).toNat := by
      rw [hwhole, Nat.pow_zero, Nat.mul_one]
      calc 2 * (m * oneUnits) < 2 * (2 ^ (m.log2 + 1) * oneUnits) :=
            Nat.mul_lt_mul_of_pos_left (Nat.mul_lt_mul_of_pos_right Nat.lt_log2_self oneUnits_pos) Nat.two_pos
        _ = 2 ^ (m.log2 + 1 + unitPlaces + 1) := by rw [pow_mul_oneUnits, Nat.pow_succ' (n := m.log2 + 1 + unitPlaces)]
        _ ≤ 2 ^ (-e).toNat := Nat.pow_le_pow_right (by decide) (by unfold unitPlaces; omega)
        _ ≤ 10 ^ (-e).toNat := Nat.pow_le_pow_left (by decide) _
    rw [nearestBits_small hsmall, Nat.min_zero]
  · rfl

/-- Zeros at the end of the digits count in the exponent. -/
theorem scaledBits_shift (m k : Nat) (e : Int) : scaledBits (m * 10 ^ k) e = scaledBits m (e + k) := by
  have hplaces : k + e.toNat + (-(e + k)).toNat = (e + k).toNat + (-e).toNat := by omega
  have hsame : m * 10 ^ k * 10 ^ e.toNat * oneUnits * 10 ^ (-(e + k)).toNat =
      m * 10 ^ (e + k).toNat * oneUnits * 10 ^ (-e).toNat := by
    calc m * 10 ^ k * 10 ^ e.toNat * oneUnits * 10 ^ (-(e + k)).toNat
        = m * oneUnits * 10 ^ (k + e.toNat + (-(e + k)).toNat) := by ring
      _ = m * 10 ^ (e + k).toNat * oneUnits * 10 ^ (-e).toNat := by rw [hplaces]; ring
  rw [scaledBits_eq, scaledBits_eq, nearestBits_congr (by positivity) (by positivity) hsame]

/-- The magnitude of a finite floating-point number, with all the digits that its exponent allows. -/
structure Binary.IsFinite (x : Binary) : Prop where
  short : x.m < 2 ^ 53
  lowest : -1074 ≤ x.q
  full : x.q = -1074 ∨ 2 ^ 52 ≤ x.m
  below : x.bits < infinityBits

theorem exponent_eq (b : UInt64) : ((b >>> 52) &&& 0x7FF).toNat = b.toNat / 2 ^ 52 % 2 ^ 11 := by
  rw [UInt64.toNat_and, UInt64.toNat_shiftRight, Nat.shiftRight_eq_div_pow]
  exact Nat.and_two_pow_sub_one_eq_mod _ 11

theorem fraction_eq (b : UInt64) : (b &&& 0xFFFFFFFFFFFFF).toNat = b.toNat % 2 ^ 52 := by
  rw [UInt64.toNat_and]
  exact Nat.and_two_pow_sub_one_eq_mod _ 52

/-- Bits below infinity are those of a finite number. -/
theorem Binary.isFinite_ofBits {b : UInt64} (h : b.toNat < infinityBits) :
    (Binary.ofBits b).IsFinite ∧ (Binary.ofBits b).bits = b.toNat := by
  suffices hall : (Binary.ofBits b).m < 2 ^ 53 ∧ -1074 ≤ (Binary.ofBits b).q ∧
      ((Binary.ofBits b).q = -1074 ∨ 2 ^ 52 ≤ (Binary.ofBits b).m) ∧ (Binary.ofBits b).bits = b.toNat from
    ⟨⟨hall.1, hall.2.1, hall.2.2.1, hall.2.2.2 ▸ h⟩, hall.2.2.2⟩
  unfold infinityBits at h
  simp only [Binary.ofBits, Binary.bits, exponent_eq, fraction_eq]
  split <;> (dsimp only; omega)

variable {x : Binary}

theorem scaledBits_exact (hx : x.IsFinite) : scaledBits x.exact.digits x.exact.exp = x.bits := by
  have hunits : nearestBits (x.m * 2 ^ (x.q + 1074).toNat) 1 = x.bits :=
    nearestBits_exact hx.short (hx.full.imp (fun h => by omega) id)
  suffices hquotient : nearestBits (x.exact.digits * 10 ^ x.exact.exp.toNat * oneUnits) (10 ^ (-x.exact.exp).toNat) = x.bits by
    rw [scaledBits_eq, hquotient, Nat.min_eq_right hx.below.le]
  have hlowest := hx.lowest
  rw [← hunits]
  refine nearestBits_congr (by positivity) Nat.one_pos ?_
  unfold Binary.exact
  split
  · next hq =>
    have hplaces : (x.q + 1074).toNat = x.q.toNat + unitPlaces := by unfold unitPlaces; omega
    rw [hplaces, ← pow_mul_oneUnits]
    simp [Nat.mul_assoc]
  · next hq =>
    obtain ⟨k, hk⟩ : ∃ k : Nat, x.q = -k := ⟨x.q.natAbs, by omega⟩
    have hneg : (-x.q).toNat = k := by omega
    have hpos : x.q.toNat = 0 := by omega
    have hone : oneUnits = 2 ^ (x.q + 1074).toNat * 2 ^ k := by
      have hplaces : (x.q + 1074).toNat + k = unitPlaces := by unfold unitPlaces; omega
      rw [← Nat.pow_add, hplaces, oneUnits_eq]
    have hten : 5 ^ k * 2 ^ k = 10 ^ k := (Nat.mul_pow 5 2 k).symm
    simp only [hneg, hpos, hone, Nat.pow_eq]
    rw [← hten]
    ring

/-! ## Selection -/

theorem Binary.scaledBits_of_onGrid? {g : Int} {d : Scaled} (h : x.onGrid? g = some d) :
    scaledBits d.digits d.exp = x.bits := by
  suffices hback : x.readsBack d = true by simpa [Binary.readsBack] using hback
  simp only [Binary.onGrid?] at h
  split at h
  · cases h
  · cases h; assumption
  · cases h; assumption
  · split at h
    · cases h; assumption
    · cases h; assumption
    · split at h <;> (cases h; assumption)

/-- Stripping zeros moves powers of ten and loses none. -/
theorem scaledBits_stripZeros (fuel : Nat) (d : Scaled) :
    scaledBits (stripZeros fuel d).digits (stripZeros fuel d).exp = scaledBits d.digits d.exp := by
  induction fuel generalizing d with
  | zero => rfl
  | succ fuel ih =>
    unfold stripZeros
    split
    · next h =>
      have hdigits : d.digits / 10 * 10 ^ 1 = d.digits := Nat.div_mul_cancel (Nat.dvd_of_mod_eq_zero h.2)
      rw [ih]
      have hshift := scaledBits_shift (d.digits / 10) 1 d.exp
      rw [hdigits] at hshift
      exact hshift.symm
    · rfl

/-- The selected decimal is rounded to the number. -/
theorem scaledBits_select (hx : x.IsFinite) : scaledBits x.select.digits x.select.exp = x.bits := by
  unfold Binary.select
  split
  · next hm =>
    have hq : x.q = -1074 := hx.full.resolve_right (by omega)
    simp [scaledBits, Binary.bits, hm, hq]
  · rw [scaledBits_stripZeros]
    cases hfound : (List.range' 1 17).findSome? fun (n : Nat) => x.onGrid? (x.scale - (n : Int)) with
    | none => simpa [hfound] using scaledBits_exact hx
    | some d =>
      obtain ⟨n, -, hn⟩ := List.exists_of_findSome?_eq_some hfound
      simpa [hfound] using Binary.scaledBits_of_onGrid? hn

end YamlSplice.Decimal
