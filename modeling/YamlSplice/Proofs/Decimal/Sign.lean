/-
  YamlSplice.Proofs.Decimal.Sign — a floating-point number as its magnitude behind its sign.

  The bits of a number are its sign, its exponent and its mantissa, and the magnitude is what is left when the sign is
  masked out. Negation changes the sign alone (`neg_unpack`), so that a negative number is the negated magnitude
  (`neg_magnitude`). Of the bits that are no number only one pattern is in use (`eq_notANumber`).
-/

import Mathlib
import YamlSplice.Decimal.Numeral

namespace YamlSplice.Decimal

open Float.Model Float.Model.UnpackedFloat

/-- All the bits of a number but its sign. -/
def magnitudeMask : BitVec Format.binary64.numBits := 0x7FFFFFFFFFFFFFFF#64

variable {b : BitVec Format.binary64.numBits}

theorem unpackExponent_and : unpackExponent (b &&& magnitudeMask) = unpackExponent b := by
  have hmask : unpackExponent magnitudeMask = BitVec.allOnes 11 := by decide
  rw [unpackExponent_def] at hmask
  rw [unpackExponent_def, unpackExponent_def, BitVec.extractLsb'_and, hmask, BitVec.and_allOnes]

theorem unpackMantissa_and : unpackMantissa (b &&& magnitudeMask) = unpackMantissa b := by
  have hmask : unpackMantissa magnitudeMask = BitVec.allOnes 52 := by decide
  rw [unpackMantissa_def] at hmask
  rw [unpackMantissa_def, unpackMantissa_def, BitVec.extractLsb'_and, hmask, BitVec.and_allOnes]

theorem unpackSign_and : unpackSign (b &&& magnitudeMask) = 0#1 := by
  have hmask : unpackSign magnitudeMask = 0#1 := by decide
  rw [unpackSign_def] at hmask
  rw [unpackSign_def, BitVec.extractLsb'_and, hmask, BitVec.and_zero]

theorem unpackSign_of_ne (h : b ≠ b &&& magnitudeMask) : unpackSign b = 1#1 := by
  have hbit : ∀ v : BitVec 1, v ≠ 0#1 → v = 1#1 := by decide
  refine hbit _ fun hzero => h ?_
  calc b = packComponents _ (Sign.ofBitVec (unpackSign b)) (unpackExponent b) (unpackMantissa b) :=
        (packComponents_unpackSign_unpackExponent_unpackMantissa b).symm
    _ = packComponents _ (Sign.ofBitVec (unpackSign (b &&& magnitudeMask))) (unpackExponent (b &&& magnitudeMask))
          (unpackMantissa (b &&& magnitudeMask)) := by rw [unpackSign_and, unpackExponent_and, unpackMantissa_and, hzero]
    _ = b &&& magnitudeMask := packComponents_unpackSign_unpackExponent_unpackMantissa _

/-- Negation changes the sign of what the bits stand for. -/
theorem neg_unpack (hb : unpackSign b = 1#1) : UnpackedFloat.neg (UnpackedFloat.unpack Format.binary64 (b &&& magnitudeMask)) =
    UnpackedFloat.unpack Format.binary64 b := by
  unfold UnpackedFloat.unpack
  simp only [unpackSign_and, unpackExponent_and, unpackMantissa_and, hb]
  split
  · split <;> rfl
  split
  · split <;> rfl
  · rfl

theorem toNat_exponent (b : BitVec Format.binary64.numBits) : (unpackExponent b).toNat = b.toNat / 2 ^ 52 % 2 ^ 11 := by
  rw [unpackExponent_def, BitVec.extractLsb'_toNat, Nat.shiftRight_eq_div_pow]

theorem toNat_mantissa (b : BitVec Format.binary64.numBits) : (unpackMantissa b).toNat = b.toNat % 2 ^ 52 := by
  rw [unpackMantissa_def, BitVec.extractLsb'_toNat, Nat.shiftRight_zero]

/-- Bits up to infinity are those of a number. -/
theorem valid_of_le (h : b.toNat ≤ infinityBits) : Format.binary64.Valid b := by
  refine ⟨fun hexponent hmantissa => absurd ?_ hmantissa⟩
  have hones : (unpackExponent b).toNat = 2047 := by rw [hexponent]; rfl
  rw [toNat_exponent] at hones
  apply BitVec.eq_of_toNat_eq
  rw [toNat_mantissa]
  unfold infinityBits at h
  show b.toNat % 2 ^ 52 = 0
  omega

variable {x : Float}

/-- A number with a sign is its magnitude negated. -/
theorem neg_magnitude (hsign : x.toBits ≠ x.toBits &&& 0x7FFFFFFFFFFFFFFF)
    (hnumber : (x.toBits &&& 0x7FFFFFFFFFFFFFFF).toNat ≤ infinityBits) :
    -(Float.ofBits (x.toBits &&& 0x7FFFFFFFFFFFFFFF)) = x := by
  apply Float.toBits_inj.mp
  apply UInt64.toBitVec_inj.mp
  let b : BitVec Format.binary64.numBits := x.toBits.toBitVec
  have hvalid : Format.binary64.Valid (b &&& magnitudeMask) := valid_of_le hnumber
  have hb : b ≠ b &&& magnitudeMask := fun hsame => hsign (UInt64.toBitVec_inj.mp hsame)
  show pack Format.binary64 (neg (unpack Format.binary64
    (pack Format.binary64 (unpack Format.binary64 (b &&& magnitudeMask))))) = b
  rw [pack_unpack_of_valid hvalid, neg_unpack (unpackSign_of_ne hb)]
  exact pack_unpack_of_valid x.toModel.valid

/-- What is no number has one pattern of bits. -/
theorem eq_notANumber (h : infinityBits < (x.toBits &&& 0x7FFFFFFFFFFFFFFF).toNat) : x = notANumber := by
  let b : BitVec Format.binary64.numBits := x.toBits.toBitVec
  have hbits : infinityBits < (b &&& magnitudeMask).toNat := h
  have hbelow : (b &&& magnitudeMask).toNat < 2 ^ 63 := by
    have hmask : (b &&& magnitudeMask).toNat ≤ magnitudeMask.toNat := by
      rw [BitVec.toNat_and]
      exact Nat.and_le_right
    exact Nat.lt_of_le_of_lt hmask (by decide)
  unfold infinityBits at hbits
  have hexponent : unpackExponent b = -1#_ := by
    rw [← unpackExponent_and]
    apply BitVec.eq_of_toNat_eq
    rw [toNat_exponent]
    show _ = 2047
    omega
  have hmantissa : unpackMantissa b ≠ 0#_ := by
    rw [← unpackMantissa_and]
    intro hzero
    have hnone : (unpackMantissa (b &&& magnitudeMask)).toNat = 0 := by rw [hzero]; rfl
    rw [toNat_mantissa] at hnone
    omega
  apply Float.toBits_inj.mp
  apply UInt64.toBitVec_inj.mp
  exact x.toModel.valid.eq_packedNaN hexponent hmantissa

end YamlSplice.Decimal
