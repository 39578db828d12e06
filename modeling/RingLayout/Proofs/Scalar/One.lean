import RingLayout.Proofs.Scalar.Double
import RingLayout.Proofs.Scalar.Real

/-! # Multiplying by one

A factor of one changes nothing: in exact arithmetic, and in double precision for every number. The
mantissa of a product by one is that of the number with zeros appended, and rounding drops them.
-/

namespace RingLayout

/-- Scalars whose products by one are exact. -/
class LawfulOne (K : Type) [Scalar K] : Prop where
  mul_one : ∀ x : K, x * 1.0 = x

instance instLawfulOneReal : LawfulOne ℝ where
  mul_one x := by norm_num

namespace Double

open Float.Model Float.Model.UnpackedFloat

/-- Finite numbers have the exponent that they are rounded to. -/
def Canonical : UnpackedFloat → Prop
  | .finite _ m e _ => Format.binary64.targetExponent (totalExponent m e) = e
  | _ => True

theorem canonical_unpack (b : BitVec Format.binary64.numBits) :
    Canonical (UnpackedFloat.unpack Format.binary64 b) := by
  have hbias : ((Format.binary64.exponentBias : Int) +
      (Format.binary64.mantissaBitsWithoutImplicit : Int)) = 1075 := rfl
  unfold UnpackedFloat.unpack
  dsimp only
  split
  · split <;> exact trivial
  · split
    next hexponent =>
      -- subnormal numbers have fewer bits and the least exponent
      split
      · exact trivial
      next hmantissa =>
        have hne : (unpackMantissa b).toNat ≠ 0 := fun hzero =>
          hmantissa (BitVec.eq_of_toNat_eq hzero)
        have hlog : (unpackMantissa b).toNat.log2 < 52 :=
          (Nat.log2_lt hne).mpr (unpackMantissa b).isLt
        have hzero : ((BitVec.ofNat Format.binary64.exponentBits 0).toNat : Int) = 0 := rfl
        rw [Canonical, targetExponent_eq, totalExponent, hbias, hexponent, hzero]
        omega
    next hexponent =>
      have hpos : 0 < (unpackExponent b).toNat := by
        refine Nat.pos_of_ne_zero fun hzero => hexponent (BitVec.eq_of_toNat_eq ?_)
        rw [hzero]
        rfl
      rw [Canonical, targetExponent_eq, totalExponent, hbias, log2_one_append]
      omega

/-- Zeros are shifted out without a trace. -/
theorem shiftRight_mul_pow (m n : Nat) :
    (⟨m * 2 ^ n, false, false⟩ : ExtendedMantissa) >>> n = ⟨m, false, false⟩ := by
  change n.repeat ExtendedMantissa.shiftRightOne _ = _
  induction n generalizing m with
  | zero => simp [Nat.repeat]
  | succ n ih =>
      rw [Nat.repeat, Nat.pow_succ', ← Nat.mul_assoc, ih]
      simp [ExtendedMantissa.shiftRightOne]

theorem shiftToTargetExponent_mul_pow {m n : Nat} {e : Int} (hm : 0 < m)
    (h : Format.binary64.targetExponent (totalExponent m e) = e) :
    shiftToTargetExponent Format.binary64 (m * 2 ^ n) (e - n) .exact = (⟨m, false, false⟩, e) := by
  have htotal : totalExponent (m * 2 ^ n) (e - n) = totalExponent m e := by
    rw [totalExponent, totalExponent, log2_mul_pow hm.ne']
    omega
  have hshift : (e - (e - n)).toNat = n := by omega
  simp only [shiftToTargetExponent, htotal, h, shiftToExponent, hshift]
  refine Prod.ext (shiftRight_mul_pow m n) ?_
  dsimp only
  omega

/-- A number with zeros appended is rounded to itself. -/
theorem round_mul_pow {s : Sign} {m n : Nat} {e : Int} (hm : 0 < m)
    (h : Canonical (.finite s m e hm)) :
    roundWithAccuracy Format.binary64 s (m * 2 ^ n) (e - n) .exact = .finite s m e hm := by
  have hlast := shiftToTargetExponent_mul_pow (n := 0) hm h
  rw [Nat.pow_zero, Nat.mul_one, Nat.cast_zero, sub_zero] at hlast
  have hrounded : (⟨m, false, false⟩ : ExtendedMantissa).roundedMantissa = m := rfl
  simp only [roundWithAccuracy, shiftToTargetExponent_mul_pow hm h, hrounded, hlast,
    dif_neg hm.ne']

theorem mul_one_of_canonical {x : UnpackedFloat} (h : Canonical x) :
    UnpackedFloat.mul Format.binary64 x (.finite .positive (2 ^ 52) (-52) (by decide)) = x := by
  have hsign : ∀ s : Sign, s * .positive = s := fun s => by cases s <;> rfl
  cases x with
  | finite s m e hm =>
      change roundWithAccuracy Format.binary64 (s * .positive) (m * 2 ^ 52) (e + -52) .exact = _
      rw [hsign]
      exact round_mul_pow (n := 52) hm h
  | infinity s => exact congrArg UnpackedFloat.infinity (hsign s)
  | zero s => exact congrArg UnpackedFloat.zero (hsign s)
  | notANumber => rfl

/-- A double that is unpacked and packed again is the same. -/
theorem ofModel_pack_unpack (x : Float) :
    Float.ofModel (Float.Model.pack x.toModel.unpack) = x := by
  obtain ⟨⟨bits, hvalid⟩⟩ := x
  have hbits : Float.Model.UnpackedFloat.pack .binary64
      (Float.Model.unpack ⟨bits, hvalid⟩) = bits.toBitVec :=
    Float.Model.UnpackedFloat.pack_unpack_of_valid hvalid
  have hword : UInt64.ofBitVec (Float.Model.UnpackedFloat.pack .binary64
      (Float.Model.unpack ⟨bits, hvalid⟩)) = bits := congrArg UInt64.ofBitVec hbits
  refine congrArg Float.ofModel ?_
  unfold Float.Model.pack
  congr 1

end Double

instance instLawfulOneFloat : LawfulOne Float where
  mul_one x := by
    have hproduct : Float.Model.UnpackedFloat.mul .binary64 x.toModel.unpack
        (1.0 : Float).toModel.unpack = x.toModel.unpack :=
      Double.mul_one_of_canonical (Double.canonical_unpack _)
    change Float.ofModel (Float.Model.pack (Float.Model.UnpackedFloat.mul _ _ _)) = x
    rw [hproduct]
    exact Double.ofModel_pack_unpack x

end RingLayout
