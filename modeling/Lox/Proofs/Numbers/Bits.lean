import Lox.Number.Binary64
import Mathlib

-- Only all of Mathlib brings the lemmas on `Float.Model`.

namespace Lox.Number

open Float.Model Float.Model.UnpackedFloat

variable {b b' : UInt64} {x : Float}

theorem toNat_unpackMantissa (b : UInt64) :
    (@unpackMantissa .binary64 b.toBitVec).toNat = b.toNat % 2 ^ 52 := by
  rw [unpackMantissa_def, BitVec.extractLsb'_toNat]
  rfl

theorem toNat_unpackExponent (b : UInt64) :
    (@unpackExponent .binary64 b.toBitVec).toNat = b.toNat / 2 ^ 52 % 2 ^ 11 := by
  rw [unpackExponent_def, BitVec.extractLsb'_toNat, Nat.shiftRight_eq_div_pow]
  rfl

theorem toNat_unpackSign (b : UInt64) :
    (@unpackSign .binary64 b.toBitVec).toNat = b.toNat / 2 ^ 63 % 2 := by
  rw [unpackSign_def, BitVec.extractLsb'_toNat, Nat.shiftRight_eq_div_pow]
  rfl

/-- The exponent bits are all set from the pattern of infinity on. -/
theorem unpackExponent_eq_iff :
    @unpackExponent .binary64 b.toBitVec = -1#11 ↔
      infinityPattern ≤ b.toNat % 2 ^ 63 := by
  have hexponent := toNat_unpackExponent b
  have hpattern : infinityPattern = 2047 * 2 ^ 52 := rfl
  rw [hpattern, ← BitVec.toNat_inj, hexponent]
  change b.toNat / 2 ^ 52 % 2 ^ 11 = 2047 ↔ _
  omega

theorem pack_unpack_toBitVec (h : b.toNat % 2 ^ 63 < infinityPattern) :
    UnpackedFloat.pack .binary64 (UnpackedFloat.unpack .binary64 b.toBitVec) = b.toBitVec := by
  have hnumber : @isNaNBits .binary64 b.toBitVec = false := by
    refine decide_eq_false fun hnan => ?_
    exact Nat.not_le_of_lt h (unpackExponent_eq_iff.mp hnan.1)
  have hpack := @pack_unpack .binary64 b.toBitVec (by decide)
  rwa [hnumber] at hpack

theorem toBits_ofBits (h : b.toNat % 2 ^ 63 < infinityPattern) : (Float.ofBits b).toBits = b :=
  congrArg UInt64.ofBitVec (pack_unpack_toBitVec h)

theorem isFinite_iff : x.isFinite ↔ x.toBits.toNat % 2 ^ 63 < infinityPattern := by
  rw [← Nat.not_le, ← unpackExponent_eq_iff]
  change (UnpackedFloat.unpack .binary64 x.toBits.toBitVec).isFinite ↔ _
  unfold UnpackedFloat.unpack
  dsimp only
  split
  · rename_i hexponent
    refine iff_of_false ?_ (not_not_intro hexponent)
    split <;> exact Bool.false_ne_true
  · rename_i hexponent
    refine iff_of_true ?_ hexponent
    split
    · split <;> rfl
    · rfl

theorem ofBitVec_of_ne {v w : BitVec 1} (h : v ≠ w) : Sign.ofBitVec v = -Sign.ofBitVec w := by
  rcases BitVec.eq_zero_or_eq_one v with rfl | rfl <;>
    rcases BitVec.eq_zero_or_eq_one w with rfl | rfl <;> first | rfl | exact absurd rfl h

theorem unpack_of_sign {v w : BitVec Format.binary64.numBits}
    (hmantissa : unpackMantissa v = unpackMantissa w)
    (hexponent : unpackExponent v = unpackExponent w)
    (hsign : Sign.ofBitVec (unpackSign v) = -Sign.ofBitVec (unpackSign w)) :
    UnpackedFloat.unpack .binary64 v = (UnpackedFloat.unpack .binary64 w).neg := by
  unfold UnpackedFloat.unpack
  simp only [hmantissa, hexponent, hsign]
  split
  · split <;> rfl
  · split
    · split <;> rfl
    · rfl

theorem toBits_neg (hfinite : x.isFinite) (hrest : b.toNat % 2 ^ 63 = x.toBits.toNat % 2 ^ 63)
    (hsign : b.toNat / 2 ^ 63 ≠ x.toBits.toNat / 2 ^ 63) : (-x).toBits = b := by
  have hpattern := isFinite_iff.mp hfinite
  rw [← hrest] at hpattern
  have hmantissa : @unpackMantissa .binary64 b.toBitVec =
      @unpackMantissa .binary64 x.toBits.toBitVec := by
    rw [← BitVec.toNat_inj, toNat_unpackMantissa, toNat_unpackMantissa]
    omega
  have hexponent : @unpackExponent .binary64 b.toBitVec =
      @unpackExponent .binary64 x.toBits.toBitVec := by
    rw [← BitVec.toNat_inj, toNat_unpackExponent, toNat_unpackExponent]
    omega
  have hsigns : Sign.ofBitVec (@unpackSign .binary64 b.toBitVec) =
      -Sign.ofBitVec (@unpackSign .binary64 x.toBits.toBitVec) := by
    refine ofBitVec_of_ne fun heq => hsign ?_
    rw [← BitVec.toNat_inj, toNat_unpackSign, toNat_unpackSign] at heq
    have hlt := b.toNat_lt
    have hlt' := x.toBits.toNat_lt
    omega
  have hunpack := unpack_of_sign hmantissa hexponent hsigns
  change UInt64.ofBitVec (UnpackedFloat.pack .binary64
    (UnpackedFloat.unpack .binary64 x.toBits.toBitVec).neg) = b
  rw [← hunpack, pack_unpack_toBitVec hpattern]

end Lox.Number
