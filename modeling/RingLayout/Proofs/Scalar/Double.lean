import Mathlib
import RingLayout.Scalar.Double

/-! # Lower bounds in double precision

Rounding never takes a number below a power of two. So the product of two doubles is at least the
power of two that their lower bounds give, and a double of at least 1 has a positive integer part.
-/

namespace RingLayout.Double

open Float.Model Float.Model.UnpackedFloat

/-- A number of at least `2 ^ k` with 53 significant bits, or positive infinity. -/
def AtLeast (k : Int) : UnpackedFloat → Prop
  | .infinity .positive => True
  | .finite .positive m e _ => m.log2 = 52 ∧ k ≤ 52 + e
  | _ => False

/-! ## Rounding -/

theorem mantissa_shiftRight (em : ExtendedMantissa) (n : Nat) :
    (em >>> n).mantissa = em.mantissa / 2 ^ n := by
  change (n.repeat ExtendedMantissa.shiftRightOne em).mantissa = _
  induction n with
  | zero => simp [Nat.repeat]
  | succ n ih =>
      rw [Nat.repeat, ExtendedMantissa.shiftRightOne, ih, Nat.pow_succ, Nat.div_div_eq_div_mul]

theorem log2_div_pow {m s : Nat} (hs : s ≤ m.log2) : (m / 2 ^ s).log2 = m.log2 - s := by
  by_cases hm : m = 0
  · subst hm
    simp
  · have hle : 2 ^ m.log2 ≤ m := Nat.log2_self_le hm
    have hlt : m < 2 ^ (m.log2 + 1) := Nat.lt_log2_self
    have hlow : 2 ^ (m.log2 - s) ≤ m / 2 ^ s := by
      rw [Nat.le_div_iff_mul_le (Nat.two_pow_pos s), ← Nat.pow_add, Nat.sub_add_cancel hs]
      exact hle
    have hhigh : m / 2 ^ s < 2 ^ (m.log2 - s + 1) := by
      rw [Nat.div_lt_iff_lt_mul (Nat.two_pow_pos s), ← Nat.pow_add]
      refine Nat.lt_of_lt_of_eq hlt (congrArg _ ?_)
      omega
    have hne : m / 2 ^ s ≠ 0 := Nat.ne_of_gt (Nat.lt_of_lt_of_le (Nat.two_pow_pos _) hlow)
    exact (Nat.log2_eq_iff hne).mpr ⟨hlow, hhigh⟩

theorem targetExponent_eq (t : Int) : Format.binary64.targetExponent t = max (t - 53) (-1074) := by
  simp only [Format.targetExponent]
  rfl

theorem mantissa_ofMantissaAndAccuracy (m : Nat) (accuracy : Accuracy) :
    (ExtendedMantissa.ofMantissaAndAccuracy m accuracy).mantissa = m := by
  rcases accuracy with _ | _ | _ | _ <;> rfl

/-- A shift to the exponent that a number should have leaves 53 bits of the mantissa and the size
of the number as they are. -/
theorem log2_shiftToTargetExponent {m : Nat} {e : Int} (accuracy : Accuracy) (hm : 52 ≤ m.log2)
    (he : -1000 ≤ m.log2 + e) :
    (shiftToTargetExponent Format.binary64 m e accuracy).1.mantissa.log2 = 52 ∧
      52 + (shiftToTargetExponent Format.binary64 m e accuracy).2 = m.log2 + e := by
  have hshift : (Format.binary64.targetExponent (totalExponent m e) - e).toNat = m.log2 - 52 := by
    rw [targetExponent_eq, totalExponent]
    omega
  simp only [shiftToTargetExponent, shiftToExponent, hshift]
  rw [mantissa_shiftRight, mantissa_ofMantissaAndAccuracy, log2_div_pow (Nat.sub_le _ _)]
  omega

theorem log2_roundedMantissa (em : ExtendedMantissa) :
    em.mantissa.log2 ≤ em.roundedMantissa.log2 := by
  have hle : em.mantissa ≤ em.roundedMantissa := by
    unfold ExtendedMantissa.roundedMantissa
    rcases em.accuracy with _ | _ | _ | _ <;> simp [Accuracy.roundToNearestEven]
  by_cases hzero : em.mantissa = 0
  · rw [hzero]
    simp
  · have hne : em.roundedMantissa ≠ 0 := by omega
    exact (Nat.le_log2 hne).mpr (Nat.le_trans (Nat.log2_self_le hzero) hle)

/-- Rounding keeps a lower bound that is a power of two. -/
theorem atLeast_round {m : Nat} {e k : Int} (hm : 52 ≤ m.log2) (hk : k ≤ m.log2 + e)
    (hlow : -1000 ≤ k) : AtLeast k (roundWithAccuracy Format.binary64 .positive m e .exact) := by
  obtain ⟨hfirst, hfirst'⟩ := log2_shiftToTargetExponent .exact hm (by omega : -1000 ≤ m.log2 + e)
  have hround := log2_roundedMantissa (shiftToTargetExponent Format.binary64 m e .exact).1
  rw [hfirst] at hround
  -- rounding up may carry into another bit, so the mantissa is shifted once more
  obtain ⟨hlast, hlast'⟩ := log2_shiftToTargetExponent
    (e := (shiftToTargetExponent Format.binary64 m e .exact).2) .exact hround (by omega)
  unfold roundWithAccuracy
  dsimp only
  split
  next hzero =>
    rw [hzero] at hlast
    exact absurd hlast (by decide)
  next => exact ⟨hlast, by omega⟩

/-! ## Packing -/

theorem unpackSign_packComponents {sign : Sign} {exponent : BitVec 11} {mantissa : BitVec 52} :
    Sign.ofBitVec (unpackSign (packComponents Format.binary64 sign exponent mantissa)) = sign := by
  have hbit : unpackSign (packComponents Format.binary64 sign exponent mantissa) =
      sign.toBitVec := by
    ext i hi
    obtain rfl : i = 0 := by omega
    simp only [unpackSign, packComponents, BitVec.getElem_cast, BitVec.extractLsb,
      BitVec.getElem_extractLsb']
    rw [BitVec.getLsbD_append, if_neg (by decide), BitVec.getLsbD_append, if_neg (by decide)]
    rfl
  rw [hbit]
  cases sign <;> rfl

/-- The mantissa of a normal number with its leading bit. -/
theorem toNat_one_append (mantissa : BitVec 52) :
    (1#1 ++ mantissa).toNat = 2 ^ 52 + mantissa.toNat := by
  rw [BitVec.toNat_append, ← Nat.shiftLeft_add_eq_or_of_lt mantissa.isLt]
  rfl

theorem log2_one_append (mantissa : BitVec 52) : (1#1 ++ mantissa).toNat.log2 = 52 := by
  have hlt := mantissa.isLt
  rw [toNat_one_append]
  exact (Nat.log2_eq_iff (by omega)).mpr ⟨by omega, by omega⟩

/-- A normal number is packed and unpacked without a change. -/
theorem unpack_pack_of_normal {s : Sign} {m : Nat} {e : Int} (hm : 0 < m) (hlog : m.log2 = 52)
    (hlow : -1074 ≤ e) (hhigh : e ≤ 971) :
    UnpackedFloat.unpack Format.binary64 (UnpackedFloat.pack Format.binary64 (.finite s m e hm)) =
      .finite s m e hm := by
  have hbits : Format.binary64.mantissaBits = 53 := rfl
  have hbias : (e + Format.binary64.exponentBias + Format.binary64.mantissaBitsWithoutImplicit
      : Int) = e + 1075 := by
    change e + (1023 : Int) + 52 = e + 1075
    omega
  have htoNat : (BitVec.ofNat 11 (e + 1075).toNat).toNat = (e + 1075).toNat := by
    rw [BitVec.toNat_ofNat, Nat.mod_eq_of_lt (by omega)]
  have hmantissa : (1#1 ++ BitVec.ofNat 52 m).toNat = m := by
    obtain ⟨hle, hlt⟩ := (Nat.log2_eq_iff hm.ne').mp hlog
    rw [toNat_one_append, BitVec.toNat_ofNat]
    omega
  have hexponent : ((e + 1075).toNat : Int) - ((1023 : Nat) + (52 : Nat)) = e := by omega
  unfold UnpackedFloat.pack
  simp only [hlog, hbias, hbits]
  rw [if_neg fun hbig => ?_, if_pos trivial]
  · unfold UnpackedFloat.unpack
    simp only [unpackMantissa_packComponents, unpackExponent_packComponents,
      unpackSign_packComponents]
    rw [if_neg fun heq => ?_, if_neg fun heq => ?_]
    · rw [UnpackedFloat.finite.injEq, htoNat]
      exact ⟨rfl, hmantissa, hexponent⟩
    -- neither the exponent of subnormal numbers nor that of infinities
    · rw [heq] at htoNat
      change 0 = _ at htoNat
      omega
    · rw [heq] at htoNat
      change 2047 = _ at htoNat
      omega
  · change 2048 ≤ (e + 1075).toNat + 1 at hbig
    omega

/-- Packing keeps a lower bound, since what does not fit becomes infinite. -/
theorem atLeast_unpack_pack {k : Int} {x : UnpackedFloat} (h : AtLeast k x) (hlow : -1000 ≤ k) :
    AtLeast k (UnpackedFloat.unpack Format.binary64 (UnpackedFloat.pack Format.binary64 x)) := by
  match x, h with
  | .infinity .positive, _ => exact trivial
  | .finite .positive m e hm, ⟨hlog, hk⟩ =>
      by_cases hhigh : e ≤ 971
      · rw [unpack_pack_of_normal hm hlog (by omega) hhigh]
        exact ⟨hlog, hk⟩
      · have hbig : 2 ^ Format.binary64.exponentBits ≤ (e + Format.binary64.exponentBias +
            Format.binary64.mantissaBitsWithoutImplicit : Int).toNat + 1 := by
          change 2048 ≤ (e + (1023 : Int) + 52).toNat + 1
          omega
        unfold UnpackedFloat.pack
        dsimp only
        rw [if_pos hbig]
        exact trivial

/-! ## Products -/

theorem mul_finite {m n : Nat} {e f : Int} (hm : 0 < m) (hn : 0 < n) :
    UnpackedFloat.mul Format.binary64 (.finite .positive m e hm) (.finite .positive n f hn) =
      roundWithAccuracy Format.binary64 .positive (m * n) (e + f) .exact := rfl

/-- A product is at least the product of the lower bounds. -/
theorem atLeast_mul {j k : Int} {x y : UnpackedFloat} (hx : AtLeast j x) (hy : AtLeast k y)
    (hlow : -1000 ≤ j + k) : AtLeast (j + k) (UnpackedFloat.mul Format.binary64 x y) := by
  match x, hx, y, hy with
  | .infinity .positive, _, .infinity .positive, _ => exact trivial
  | .infinity .positive, _, .finite .positive .., _ => exact trivial
  | .finite .positive .., _, .infinity .positive, _ => exact trivial
  | .finite .positive m e hm, ⟨hx, hj⟩, .finite .positive n f hn, ⟨hy, hk⟩ =>
      have hlog : 104 ≤ (m * n).log2 := by
        have hm' := Nat.log2_self_le (Nat.ne_of_gt hm)
        have hn' := Nat.log2_self_le (Nat.ne_of_gt hn)
        rw [hx] at hm'
        rw [hy] at hn'
        have hpow : 2 ^ (52 + 52) ≤ m * n := by
          rw [Nat.pow_add]
          exact Nat.mul_le_mul hm' hn'
        exact (Nat.le_log2 (Nat.ne_of_gt (Nat.mul_pos hm hn))).mpr hpow
      rw [mul_finite]
      exact atLeast_round (by omega) (by omega) hlow

/-- Doubles of at least `2 ^ k`. -/
def FloatAtLeast (k : Int) (x : Float) : Prop := AtLeast k x.toModel.unpack

theorem floatAtLeast_mono {j k : Int} {x : Float} (hle : j ≤ k) (h : FloatAtLeast k x) :
    FloatAtLeast j x := by
  unfold FloatAtLeast at *
  match x.toModel.unpack, h with
  | .infinity .positive, _ => exact trivial
  | .finite .positive _ _ _, ⟨hlog, hk⟩ => exact ⟨hlog, by omega⟩

theorem floatAtLeast_mul {j k : Int} {x y : Float} (hx : FloatAtLeast j x)
    (hy : FloatAtLeast k y) (hlow : -1000 ≤ j + k) : FloatAtLeast (j + k) (x * y) :=
  atLeast_unpack_pack (atLeast_mul hx hy hlow) hlow

/-! ## Integers -/

theorem log2_mul_pow {n : Nat} (hn : n ≠ 0) (s : Nat) : (n * 2 ^ s).log2 = n.log2 + s := by
  have hne : n * 2 ^ s ≠ 0 := Nat.mul_ne_zero hn (Nat.ne_of_gt (Nat.two_pow_pos s))
  refine (Nat.log2_eq_iff hne).mpr ⟨?_, ?_⟩
  · rw [Nat.pow_add]
    exact Nat.mul_le_mul_right _ (Nat.log2_self_le hn)
  · have hlt : n < 2 ^ (n.log2 + 1) := Nat.lt_log2_self
    rw [Nat.add_right_comm, Nat.pow_add]
    exact Nat.mul_lt_mul_of_pos_right hlt (Nat.two_pow_pos s)

/-- A positive integer gets 53 bits before it is rounded. -/
theorem ofNat_eq_round {n : Nat} (hn : n ≠ 0) :
    UnpackedFloat.ofNat Format.binary64 n =
      roundWithAccuracy Format.binary64 .positive (n * 2 ^ (52 - n.log2))
        (0 - (52 - n.log2 : Nat)) .exact := by
  have hcompare : compare (n : Int) 0 = .gt := by
    rw [Int.compare_eq_gt]
    omega
  have hshift : (0 - Format.binary64.targetExponent (totalExponent n 0)).toNat = 52 - n.log2 := by
    rw [targetExponent_eq, totalExponent]
    omega
  simp only [UnpackedFloat.ofNat, UnpackedFloat.ofInt, UnpackedFloat.normalize, hcompare,
    Int.toNat_natCast, UnpackedFloat.round, decreaseExponent, hshift, Nat.shiftLeft_eq]

/-- A positive integer is converted to a number that is at least its highest power of two. -/
theorem atLeast_ofNat {n : Nat} (hn : n ≠ 0) :
    AtLeast n.log2 (UnpackedFloat.ofNat Format.binary64 n) := by
  have hlog := log2_mul_pow hn (52 - n.log2)
  rw [ofNat_eq_round hn]
  exact atLeast_round (by omega) (by omega) (by omega)

instance instDecidableAtLeast (k : Int) : (x : UnpackedFloat) → Decidable (AtLeast k x)
  | .infinity .positive => inferInstanceAs (Decidable True)
  | .finite .positive m e _ => inferInstanceAs (Decidable (m.log2 = 52 ∧ k ≤ 52 + e))
  | .infinity .negative => inferInstanceAs (Decidable False)
  | .finite .negative _ _ _ => inferInstanceAs (Decidable False)
  | .zero _ => inferInstanceAs (Decidable False)
  | .notANumber => inferInstanceAs (Decidable False)

instance instDecidableFloatAtLeast (k : Int) (x : Float) : Decidable (FloatAtLeast k x) :=
  instDecidableAtLeast k x.toModel.unpack

theorem floatAtLeast_ofNat {n : Nat} (hn : n ≠ 0) : FloatAtLeast n.log2 (Float.ofNat n) := by
  change FloatAtLeast n.log2 (Float.ofScientific n false 0)
  unfold Float.ofScientific
  split
  next hsmall =>
    have htoNat : n.toUInt64.toNat = n := by
      rw [Nat.toUInt64_eq, UInt64.toNat_ofNat', Nat.mod_eq_of_lt (by omega)]
    have hint : FloatAtLeast n.log2 n.toUInt64.toFloat := by
      have hround := atLeast_ofNat (n := n.toUInt64.toNat) (by rwa [htoNat])
      rw [htoNat] at hround
      exact atLeast_unpack_pack (by rw [UnpackedFloat.ofUInt64, htoNat]; exact hround) (by omega)
    have hone : FloatAtLeast 0 (Float.ofBits 0x3FF0000000000000) := by decide +kernel
    have hmul := floatAtLeast_mul hint hone (by omega)
    rw [Int.add_zero] at hmul
    exact hmul
  next hlarge =>
    have hround : AtLeast n.log2 (UnpackedFloat.ofScientific Format.binary64 n 0) := by
      have hlog : (n <<< 53 * 10 ^ 0).log2 = n.log2 + 53 := by
        rw [Nat.pow_zero, Nat.mul_one, Nat.shiftLeft_eq, log2_mul_pow hn]
      have hbits : Format.binary64.mantissaBits = 53 := rfl
      rw [UnpackedFloat.ofScientific, dif_neg hn, if_neg (by decide), if_neg, if_pos (by decide),
        mul_finite, hbits, Int.toNat_zero]
      · generalize n <<< 53 * 10 ^ 0 = m at hlog ⊢
        exact atLeast_round (by omega) (by omega) (by omega)
      · change ¬0 < -((2048 : Int) + n.log2)
        omega
    exact atLeast_unpack_pack hround (by omega)

/-- A double of at least 1 has a positive integer part. -/
theorem toUInt64_pos {x : Float} (hx : FloatAtLeast 0 x) : 0 < x.toUInt64.toNat := by
  have hclamp : ∀ n : Nat, 0 < n → 0 < (UInt64.ofNatClamp n).toNat := by
    intro n hn
    unfold UInt64.ofNatClamp
    split
    · rwa [UInt64.toNat_ofNatLT]
    · rw [UInt64.toNat_ofNatLT]
      decide
  change 0 < (UInt64.ofNatClamp (x.toModel.unpack.toInt 0 (UInt64.size - 1)).toNat).toNat
  refine hclamp _ ?_
  unfold FloatAtLeast at hx
  match hunpack : x.toModel.unpack, hx with
  | .infinity .positive, _ => decide
  | .finite .positive m e hm, ⟨hlog, he⟩ =>
      simp only [UnpackedFloat.toInt, roundToInt, decreaseExponent, shiftToExponent, Sign.apply]
      rw [mantissa_shiftRight, mantissa_ofMantissaAndAccuracy, Int.toNat_natCast, Nat.shiftLeft_eq]
      refine Nat.div_pos ?_ (Nat.two_pow_pos _)
      have hself := Nat.log2_self_le (Nat.ne_of_gt hm)
      rw [hlog] at hself
      calc 2 ^ (0 - (e - ((e - 0).toNat : Int))).toNat
          ≤ 2 ^ 52 := Nat.pow_le_pow_right (by decide) (by omega)
        _ ≤ m := hself
        _ ≤ m * 2 ^ (e - 0).toNat := Nat.le_mul_of_pos_right m (Nat.two_pow_pos _)

end RingLayout.Double
