import RingLayout.Proofs.Scalar.One

/-! # Fractions in double precision

An integer of up to 53 bits is a double, and so is its quotient by a power of two: nothing is
rounded off when such a fraction is worked out.
-/

namespace RingLayout.Double

open Float.Model Float.Model.UnpackedFloat

/-- The number that a double stands for, if it is finite. -/
def value? (x : Float) : Option ℚ :=
  match x.toModel.unpack with
  | .finite s m e _ => some (s.apply m * 2 ^ e)
  | .zero _ => some 0
  | .infinity _ => none
  | .notANumber => none

theorem canonical_of_log2 {s : Sign} {m : Nat} {e : Int} {hm : 0 < m} (hlog : m.log2 = 52)
    (he : -1074 ≤ e) : Canonical (.finite s m e hm) := by
  rw [Canonical, targetExponent_eq, totalExponent, hlog]
  omega

/-! ## Integers -/

/-- An integer of up to 53 bits is rounded to itself. -/
theorem round_of_lt {n : Nat} (hn : 0 < n) (hlt : n < 2 ^ 53) :
    UnpackedFloat.ofNat Format.binary64 n =
      .finite .positive (n * 2 ^ (52 - n.log2)) (0 - (52 - n.log2 : Nat))
        (Nat.mul_pos hn (Nat.two_pow_pos _)) := by
  have hlog : n.log2 < 53 := (Nat.log2_lt hn.ne').mpr hlt
  have hlast := log2_mul_pow hn.ne' (52 - n.log2)
  have hround := round_mul_pow (s := .positive) (n := 0)
    (Nat.mul_pos hn (Nat.two_pow_pos (52 - n.log2)))
    (canonical_of_log2 (e := 0 - (52 - n.log2 : Nat)) (by omega) (by omega))
  rw [Nat.pow_zero, Nat.mul_one, Nat.cast_zero, sub_zero] at hround
  rw [ofNat_eq_round hn.ne', hround]

theorem natCast_eq (n : Nat) : (n : Float) = Float.ofNat n := rfl

theorem ofNat_eq_toFloat {n : Nat} (hlt : n < 2 ^ 53) : Float.ofNat n = n.toUInt64.toFloat := by
  have hone : Float.ofBits 0x3FF0000000000000 = 1.0 := by rfl
  change Float.ofScientific n false 0 = _
  unfold Float.ofScientific
  rw [dif_pos ⟨hlt, by decide⟩]
  change n.toUInt64.toFloat * Float.ofBits 0x3FF0000000000000 = _
  rw [hone, LawfulOne.mul_one]

theorem unpack_ofNat {n : Nat} (hn : 0 < n) (hlt : n < 2 ^ 53) :
    (Float.ofNat n).toModel.unpack =
      .finite .positive (n * 2 ^ (52 - n.log2)) (0 - (52 - n.log2 : Nat))
        (Nat.mul_pos hn (Nat.two_pow_pos _)) := by
  have htoNat : n.toUInt64.toNat = n := by
    rw [Nat.toUInt64_eq, UInt64.toNat_ofNat', Nat.mod_eq_of_lt (by omega)]
  have hlog : n.log2 < 53 := (Nat.log2_lt hn.ne').mpr hlt
  rw [ofNat_eq_toFloat hlt]
  change UnpackedFloat.unpack _ (UnpackedFloat.pack _ (UnpackedFloat.ofNat _ n.toUInt64.toNat)) = _
  rw [htoNat, round_of_lt hn hlt]
  exact unpack_pack_of_normal _ (by rw [log2_mul_pow hn.ne']; omega) (by omega) (by omega)

/-! ## Quotients by powers of two -/

/-- The mantissa of a quotient by a power of two is that of the dividend. -/
theorem div_two_pow {s : Sign} {m : Nat} {e f : Int} (hm : 0 < m) (hlog : m.log2 = 52)
    (hlow : -1021 ≤ e - f) :
    UnpackedFloat.div Format.binary64 (.finite s m e hm)
        (.finite .positive (2 ^ 52) f (by decide)) = .finite s m (e - f - 52) hm := by
  have hsign : s / .positive = s := by cases s <;> rfl
  have hpower : (2 ^ 52).log2 = 52 := by decide
  have htarget : min (e - f) (Format.binary64.targetExponent
      (totalExponent m e - totalExponent (2 ^ 52) f)) = e - f - 53 := by
    rw [targetExponent_eq, totalExponent, totalExponent, hlog, hpower]
    omega
  have hshift : (e - f - (e - f - 53)).toNat = 53 := by omega
  have hdouble : m <<< 53 = m * 2 ^ 1 * 2 ^ 52 := by
    rw [Nat.shiftLeft_eq, Nat.mul_assoc, ← Nat.pow_add]
  have hexponent : e - f - 53 = e - f - 52 - (1 : Nat) := by omega
  simp only [UnpackedFloat.div, divCore, htarget, hshift, hsign, hdouble,
    Nat.mul_div_cancel _ (Nat.two_pow_pos 52), Nat.mul_mod_left, accuracyOfFraction, if_pos]
  rw [hexponent]
  exact round_mul_pow hm (canonical_of_log2 hlog (by omega))

/-- A fraction of 53 bits is a double. -/
theorem value?_ofNat_div {n : Nat} (hlt : n < 2 ^ 53) :
    value? (Float.ofNat n / Float.ofNat (2 ^ 53)) = some (n / (2 : ℚ) ^ 53) := by
  have hpower : (Float.ofNat (2 ^ 53)).toModel.unpack =
      .finite .positive (2 ^ 52) 1 (by decide) := rfl
  have hquotient : (Float.ofNat n / Float.ofNat (2 ^ 53)).toModel.unpack =
      UnpackedFloat.unpack Format.binary64 (UnpackedFloat.pack Format.binary64
        (UnpackedFloat.div Format.binary64 (Float.ofNat n).toModel.unpack
          (Float.ofNat (2 ^ 53)).toModel.unpack)) := rfl
  rcases Nat.eq_zero_or_pos n with rfl | hn
  · have hzero : (Float.ofNat 0 / Float.ofNat (2 ^ 53)).toModel.unpack = .zero .positive := rfl
    rw [value?, hzero]
    norm_num
  · have hlog : n.log2 < 53 := (Nat.log2_lt hn.ne').mpr hlt
    have hlast : (n * 2 ^ (52 - n.log2)).log2 = 52 := by
      rw [log2_mul_pow hn.ne']
      omega
    rw [value?, hquotient, unpack_ofNat hn hlt, hpower, div_two_pow _ hlast (by omega),
      unpack_pack_of_normal _ hlast (by omega) (by omega)]
    have hsum : ((52 - n.log2 : Nat) : Int) + (0 - (52 - n.log2 : Nat) - 1 - 52) = -53 := by omega
    have hvalue : ((n * 2 ^ (52 - n.log2) : Nat) : ℚ) *
        2 ^ (0 - ((52 - n.log2 : Nat) : Int) - 1 - 52) = n / 2 ^ 53 := by
      rw [Nat.cast_mul, Nat.cast_pow, Nat.cast_ofNat, mul_assoc,
        ← zpow_natCast (2 : ℚ) (52 - n.log2), ← zpow_add₀ two_ne_zero, hsum, zpow_neg,
        div_eq_mul_inv]
      rfl
    exact congrArg some hvalue

end RingLayout.Double
