import Mathlib

/-! # Signs of floats

Negation turns the sign bit and keeps exponent and mantissa, so doing it twice gives the float back.
-/
namespace DualEngine.FloatSign
open Float.Model UnpackedFloat

variable {b : BitVec Format.binary64.numBits}

theorem neg_neg_sign (sign : Sign) : - -sign = sign := by cases sign <;> rfl

/-- The words that are not numbers. -/
abbrev IsNaN (b : BitVec Format.binary64.numBits) : Prop :=
  unpackExponent b = -1#_ ∧ unpackMantissa b ≠ 0#_

/-- Negation turns the sign and keeps the rest. -/
theorem pack_neg_unpack (hb : ¬ IsNaN b) :
    UnpackedFloat.pack .binary64 (UnpackedFloat.unpack .binary64 b).neg = packComponents .binary64
      (-Sign.ofBitVec (unpackSign b)) (unpackExponent b) (unpackMantissa b) := by
  have hm : (unpackMantissa b).toNat < 2 ^ 52 := (unpackMantissa b).isLt
  have he : (unpackExponent b).toNat < 2 ^ 11 := (unpackExponent b).isLt
  unfold UnpackedFloat.unpack
  dsimp only
  split
  · rename_i hexp
    have hmant : unpackMantissa b = 0#_ := by
      by_contra h
      exact hb ⟨hexp, h⟩
    rw [if_pos hmant, hmant, hexp]
    rfl
  split
  · rename_i hexp
    split
    · rename_i hmant
      rw [hmant, hexp]
      rfl
    · rename_i hmant
      have hlog : (unpackMantissa b).toNat.log2 < 52 := by
        refine (Nat.log2_lt ?_).mpr hm
        simpa [BitVec.toNat_eq] using hmant
      rw [UnpackedFloat.neg, UnpackedFloat.pack, hexp]
      dsimp only
      rw [if_neg (by decide), if_neg (by show ¬ _ + 1 = 53; omega), BitVec.ofNat_toNat,
        BitVec.setWidth_eq]
  · rename_i hones hzero
    have happend : (1#1 ++ unpackMantissa b).toNat = 2 ^ 52 + (unpackMantissa b).toNat := by
      rw [BitVec.toNat_append, ← Nat.shiftLeft_add_eq_or_of_lt (unpackMantissa b).isLt]
      rfl
    have hlog : (1#1 ++ unpackMantissa b).toNat.log2 = 52 := by
      rw [happend]
      exact (Nat.log2_eq_iff (by omega)).mpr ⟨by omega, by omega⟩
    have hbiased : ((unpackExponent b).toNat - ((Format.binary64.exponentBias : Nat) +
        (Format.binary64.mantissaBitsWithoutImplicit : Nat)) + (Format.binary64.exponentBias : Nat) +
        (Format.binary64.mantissaBitsWithoutImplicit : Nat) : Int).toNat =
          (unpackExponent b).toNat := by omega
    have hless : (unpackExponent b).toNat ≠ 2 ^ 11 - 1 := fun h => hones (BitVec.eq_of_toNat_eq h)
    rw [UnpackedFloat.neg, UnpackedFloat.pack]
    dsimp only
    have hnormal : ¬ 2 ^ Format.binary64.exponentBits ≤ (unpackExponent b).toNat + 1 := by
      show ¬ 2 ^ 11 ≤ (unpackExponent b).toNat + 1
      omega
    have hmant : BitVec.ofNat 52 (2 ^ 52 + (unpackMantissa b).toNat) = unpackMantissa b := by
      apply BitVec.eq_of_toNat_eq
      rw [BitVec.toNat_ofNat, Nat.add_mod_left, Nat.mod_eq_of_lt hm]
    rw [hbiased, if_neg hnormal, if_pos (by rw [hlog]; rfl), happend, BitVec.ofNat_toNat,
      BitVec.setWidth_eq, hmant]

theorem pack_neg_unpack_of_isNaN (hb : IsNaN b) (hvalid : Format.binary64.Valid b) :
    UnpackedFloat.pack .binary64 (UnpackedFloat.unpack .binary64 b).neg = b := by
  rw [UnpackedFloat.unpack]
  dsimp only
  rw [if_pos hb.1, if_neg hb.2]
  exact (hvalid.eq_packedNaN hb.1 hb.2).symm

theorem pack_neg_unpack_twice (hvalid : Format.binary64.Valid b) :
    UnpackedFloat.pack .binary64 (UnpackedFloat.unpack .binary64
      (UnpackedFloat.pack .binary64 (UnpackedFloat.unpack .binary64 b).neg)).neg = b := by
  by_cases hb : IsNaN b
  · rw [pack_neg_unpack_of_isNaN hb hvalid, pack_neg_unpack_of_isNaN hb hvalid]
  · rw [pack_neg_unpack hb, pack_neg_unpack (by simpa [IsNaN] using hb), unpackSign_packComponents,
      unpackExponent_packComponents, unpackMantissa_packComponents, Sign.ofBitVec_toBitVec,
      neg_neg_sign, packComponents_unpackSign_unpackExponent_unpackMantissa]

/-- Two signs cancel. -/
theorem neg_neg (x : Float) : - -x = x := by
  obtain ⟨⟨bits, hvalid⟩⟩ := x
  have hbits := pack_neg_unpack_twice hvalid
  show Float.ofModel (Float.Model.pack (Float.Model.pack
    (UnpackedFloat.unpack .binary64 bits.toBitVec).neg).unpack.neg) = _
  congr 1
  unfold Float.Model.pack Float.Model.unpack
  congr 1
  exact UInt64.eq_of_toBitVec_eq hbits

end DualEngine.FloatSign
