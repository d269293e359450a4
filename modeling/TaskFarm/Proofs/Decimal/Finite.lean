import TaskFarm.Proofs.Decimal.Whole
import TaskFarm.Proofs.Decimal.Written

/-!
# Finite doubles

A double is finite unless its exponent overflows.  Changing the sign leaves the exponent alone, and
rounding makes it only a little larger, so that the double nearest to an integer of 64 bits is
finite with either sign.
-/

namespace TaskFarm.Decimal

open Float.Model (Format totalExponent UnpackedFloat)
open Float.Model.UnpackedFloat

/-! ## Exponents that do not overflow -/

/-- A number whose exponent can be packed. -/
inductive InScale : UnpackedFloat → Prop
  | zero {sign : Sign} : InScale (.zero sign)
  | finite {sign : Sign} {m : Nat} {e : Int} {hm : 0 < m} : e ≤ 971 →
      InScale (.finite sign m e hm)

namespace InScale

variable {u : UnpackedFloat}

theorem neg (h : InScale u) : InScale u.neg := by
  cases h with
  | zero => exact .zero
  | finite he => exact .finite he

/-- What is packed with an exponent that does not overflow is a finite double. -/
theorem isFinite_pack (h : InScale u) : (Float.ofModel (.pack u)).isFinite = true := by
  refine isFinite_unpack_iff.mpr ?_
  cases h with
  | @zero sign =>
      change @unpackExponent Format.binary64
        (packComponents Format.binary64 sign 0#11 0#52) ≠ -1#11
      rw [unpackExponent_packComponents]
      decide
  | @finite sign m e hm he =>
      have hsmall :
          ¬2 ^ 11 ≤ (e + (Format.binary64.exponentBias : Int) + (52 : Nat)).toNat + 1 := by
        change ¬2 ^ 11 ≤ (e + 1023 + 52).toNat + 1
        omega
      change @unpackExponent Format.binary64 (pack Format.binary64 (.finite sign m e hm)) ≠ -1#11
      simp only [pack]
      rw [if_neg hsmall]
      split
      · rw [unpackExponent_packComponents, ne_eq, ← BitVec.toNat_inj, BitVec.toNat_ofNat]
        change ¬(e + 1023 + 52).toNat % 2 ^ 11 = 2047
        omega
      · rw [unpackExponent_packComponents]
        decide

end InScale

/-- The exponent of a finite double does not overflow. -/
theorem inScale_unpack {x : Float} (h : x.isFinite = true) : InScale x.toModel.unpack := by
  have hones := isFinite_unpack_iff.mp h
  unfold Float.Model.unpack unpack
  simp only [if_neg hones]
  -- the largest field that is not all ones
  have hfield : (@unpackExponent Format.binary64 x.toModel.toBits.toBitVec).toNat ≤ 2046 := by
    have hlt := (@unpackExponent Format.binary64 x.toModel.toBits.toBitVec).isLt
    rw [ne_eq, ← BitVec.toNat_inj] at hones
    change _ < 2 ^ 11 at hlt
    change ¬_ = 2047 at hones
    omega
  have hscale : ((@unpackExponent Format.binary64 x.toModel.toBits.toBitVec).toNat : Int) -
      ((Format.binary64.exponentBias : Int) + (52 : Nat)) ≤ 971 := by
    change _ - (1023 + 52) ≤ (971 : Int)
    omega
  split
  · next hzero =>
    split
    · exact .zero
    · refine .finite ?_
      rw [hzero]
      decide
  · exact .finite hscale

theorem isFinite_neg {x : Float} (h : x.isFinite = true) : (-x).isFinite = true :=
  (inScale_unpack h).neg.isFinite_pack

/-! ## Rounding -/

theorem snd_shiftToTargetExponent (m : Nat) (e : Int) (accuracy : Accuracy) :
    (shiftToTargetExponent Format.binary64 m e accuracy).2 =
      max e (max ((m.log2 : Int) + e - 52) (-1074)) := by
  simp only [shiftToTargetExponent, shiftToExponent, Format.targetExponent, totalExponent,
    Format.mantissaBits, Format.minExponent]
  omega

theorem mantissa_shiftRight_le (mantissa : ExtendedMantissa) (shift : Nat) :
    (mantissa >>> shift).mantissa ≤ mantissa.mantissa := by
  induction shift with
  | zero => exact Nat.le_refl _
  | succ shift ih => exact (Nat.div_le_self _ 2).trans ih

theorem roundedMantissa_le (mantissa : ExtendedMantissa) :
    mantissa.roundedMantissa ≤ mantissa.mantissa + 1 := by
  unfold ExtendedMantissa.roundedMantissa Accuracy.roundToNearestEven
  split <;> omega

theorem log2_lt {n bits : Nat} (hbits : bits ≠ 0) (h : n < 2 ^ bits) : n.log2 < bits := by
  rw [Nat.log2_eq_log_two]
  exact Nat.log_lt_of_lt_pow' hbits h

/-- A number of at most 128 bits is rounded to one whose exponent does not overflow. -/
theorem inScale_roundWithAccuracy (sign : Sign) {m : Nat} {e : Int} (hm : m < 2 ^ 128)
    (he : e ≤ 0) : InScale (roundWithAccuracy Format.binary64 sign m e .exact) := by
  have hlog : m.log2 < 128 := log2_lt (by decide) hm
  have hexponent := snd_shiftToTargetExponent m e .exact
  have hmantissa : (shiftToTargetExponent Format.binary64 m e .exact).1.mantissa ≤ m :=
    mantissa_shiftRight_le _ _
  unfold roundWithAccuracy
  generalize shiftToTargetExponent Format.binary64 m e .exact = first at hexponent hmantissa ⊢
  obtain ⟨shifted, e₁⟩ := first
  dsimp only at hexponent hmantissa ⊢
  have hrounded : shifted.roundedMantissa.log2 < 129 := by
    have hle := roundedMantissa_le shifted
    exact log2_lt (by decide) (by omega)
  have hexponent' := snd_shiftToTargetExponent shifted.roundedMantissa e₁ .exact
  generalize shiftToTargetExponent Format.binary64 shifted.roundedMantissa e₁ .exact = second
    at hexponent' ⊢
  obtain ⟨final, e₂⟩ := second
  dsimp only at hexponent' ⊢
  split
  · exact .zero
  · exact .finite (by omega)

/-- An integer is converted by rounding its product with one. -/
theorem inScale_ofScientific {n : Nat} (hpos : 0 < n) (h : n < 2 ^ 64) :
    InScale (ofScientific Format.binary64 n 0) := by
  have hlow : ¬(0 : Int) < -(2 ^ 11 + (n.log2 : Int)) := by omega
  have hhigh : ¬(0 : Int) > 2 ^ 11 := by decide
  rw [ofScientific, dif_neg hpos.ne', if_neg hhigh, if_neg hlow, if_pos (Int.le_refl 0)]
  unfold mul
  refine inScale_roundWithAccuracy _ ?_ (by decide)
  rw [Nat.shiftLeft_eq]
  change n * 2 ^ 53 * 1 < 2 ^ 128
  omega

/-- The double nearest to an integer of 64 bits is finite. -/
theorem isFinite_nearest {n : Nat} (h : n < 2 ^ 64) :
    (Scientific.nearest ⟨n, 0⟩).isFinite = true := by
  rcases Nat.eq_zero_or_pos n with rfl | hpos
  · rfl
  have hcount : digitCount n ≤ 20 :=
    (Nat.length_toDigits_le_iff (by decide) (by decide)).mpr (by omega)
  by_cases hsmall : n < 2 ^ 53
  · have hnormal := IsNormal.of_lt hpos hsmall
    have hlog : n.log2 < 53 := log2_lt (by decide) hsmall
    have hscale : InScale (.finite .positive (n * 2 ^ (52 - n.log2)) ((n.log2 : Int) - 52)
      hnormal.pos) := .finite (by omega)
    have hfinite := hscale.isFinite_pack
    rw [← toModel_nearest hpos hsmall] at hfinite
    exact hfinite
  · have hlarge : ¬(n < 2 ^ 53 ∧ 0 ≤ 22) := fun hand => hsmall hand.1
    rw [nearest_eq_ofScientific hpos (by omega), Float.ofScientific, dif_neg hlarge]
    exact (inScale_ofScientific hpos h).isFinite_pack

end TaskFarm.Decimal
