import Mathlib
import TaskFarm.Decimal.Positional
import TaskFarm.Decimal.Numeral

/-!
# Whole numbers

Up to `2 ^ 53` every whole number is a double, and what is written of that double are the digits of
the number.  The first half follows the conversion through the model of doubles: a significand of 53
bits passes each rounding unchanged.  The second half looks at the interval of reals that round to
the double.  It reaches half a unit of the last of 53 binary places to either side, so the number
itself is the only whole number in it, and a coarser grid is hit only by a number that lies on it.
-/

namespace TaskFarm.Decimal

open Float.Model (Format totalExponent UnpackedFloat)
open Float.Model.UnpackedFloat

/-! ## Significands of 53 bits -/

/-- The significand of a normal double: its leading bit is the one that is not stored. -/
structure IsNormal (m : Nat) : Prop where
  low : 2 ^ 52 ≤ m
  high : m < 2 ^ 53

namespace IsNormal

variable {m : Nat}

theorem pos (h : IsNormal m) : 0 < m :=
  Nat.lt_of_lt_of_le (by decide) h.low

theorem log2_mul (h : IsNormal m) (shift : Nat) : (m * 2 ^ shift).log2 = 52 + shift := by
  have hpos : m * 2 ^ shift ≠ 0 := (Nat.mul_pos h.pos (Nat.two_pow_pos shift)).ne'
  rw [Nat.log2_eq_iff hpos, Nat.add_right_comm, Nat.pow_add, Nat.pow_add]
  exact ⟨Nat.mul_le_mul_right _ h.low, Nat.mul_lt_mul_of_pos_right h.high (Nat.two_pow_pos shift)⟩

theorem log2_eq (h : IsNormal m) : m.log2 = 52 := by
  simpa using h.log2_mul 0

/-- Every positive number below `2 ^ 53` is normal after a shift to the left. -/
theorem of_lt {n : Nat} (hpos : 0 < n) (h : n < 2 ^ 53) : IsNormal (n * 2 ^ (52 - n.log2)) := by
  have hlog : n.log2 < 53 := (Nat.log2_lt hpos.ne').mpr h
  have hlow : 2 ^ n.log2 ≤ n := Nat.log2_self_le hpos.ne'
  have hhigh : n < 2 ^ (n.log2 + 1) := Nat.lt_log2_self
  constructor
  · calc
      2 ^ 52 = 2 ^ n.log2 * 2 ^ (52 - n.log2) := by
        rw [← Nat.pow_add]
        congr 1
        omega
      _ ≤ n * 2 ^ (52 - n.log2) := Nat.mul_le_mul_right _ hlow
  · calc
      n * 2 ^ (52 - n.log2) < 2 ^ (n.log2 + 1) * 2 ^ (52 - n.log2) :=
        Nat.mul_lt_mul_of_pos_right hhigh (Nat.two_pow_pos _)
      _ = 2 ^ 53 := by
        rw [← Nat.pow_add]
        congr 1
        omega

/-! ## Rounding -/

theorem targetExponent (h : IsNormal m) (shift : Nat) {e : Int} (he : -1074 ≤ e) :
    Format.binary64.targetExponent (totalExponent (m * 2 ^ shift) (e - shift)) = e := by
  simp only [Format.targetExponent, totalExponent, h.log2_mul, Format.mantissaBits,
    Format.minExponent]
  omega

/-- Zeros that are shifted out leave no trace. -/
theorem shiftRight_exact (m shift : Nat) :
    ExtendedMantissa.ofMantissaAndAccuracy (m * 2 ^ shift) .exact >>> shift =
      ExtendedMantissa.ofMantissaAndAccuracy m .exact := by
  induction shift generalizing m with
  | zero =>
      rw [Nat.pow_zero, Nat.mul_one]
      rfl
  | succ shift ih =>
      have hstep : ExtendedMantissa.ofMantissaAndAccuracy (m * 2 ^ (shift + 1)) .exact >>>
          (shift + 1) = ExtendedMantissa.shiftRightOne
            (ExtendedMantissa.ofMantissaAndAccuracy (m * 2 ^ (shift + 1)) .exact >>> shift) := rfl
      rw [hstep, Nat.pow_succ', ← Nat.mul_assoc, ih]
      simp [ExtendedMantissa.shiftRightOne, ExtendedMantissa.ofMantissaAndAccuracy]

theorem shiftToTargetExponent (h : IsNormal m) (shift : Nat) {e : Int} (he : -1074 ≤ e) :
    UnpackedFloat.shiftToTargetExponent Format.binary64 (m * 2 ^ shift) (e - shift) .exact =
      (ExtendedMantissa.ofMantissaAndAccuracy m .exact, e) := by
  have hshift : (e - (e - shift)).toNat = shift := by omega
  have hback : e - shift + (shift : Int) = e := by omega
  simp only [UnpackedFloat.shiftToTargetExponent, h.targetExponent shift he, shiftToExponent, hshift,
    shiftRight_exact, hback]

/-- A normal significand passes rounding unchanged, also from a scale with more zeros. -/
theorem roundWithAccuracy (h : IsNormal m) (sign : Sign) (shift : Nat) {e : Int}
    (he : -1074 ≤ e) :
    UnpackedFloat.roundWithAccuracy Format.binary64 sign (m * 2 ^ shift) (e - shift) .exact =
      .finite sign m e h.pos := by
  have hrounded : (ExtendedMantissa.ofMantissaAndAccuracy m .exact).roundedMantissa = m := by
    simp [ExtendedMantissa.ofMantissaAndAccuracy, ExtendedMantissa.roundedMantissa,
      ExtendedMantissa.accuracy, Accuracy.roundToNearestEven]
  have hagain : UnpackedFloat.shiftToTargetExponent Format.binary64 m e .exact =
      (ExtendedMantissa.ofMantissaAndAccuracy m .exact, e) := by
    simpa using h.shiftToTargetExponent 0 he
  simp only [UnpackedFloat.roundWithAccuracy, h.shiftToTargetExponent shift he, hrounded, hagain]
  exact dif_neg h.pos.ne'

end IsNormal

/-! ## Fields -/

/-- The components of a double lie side by side in its bits. -/
theorem toNat_packComponents (sign : Sign) (exponent : BitVec 11) (fraction : BitVec 52) :
    (packComponents Format.binary64 sign exponent fraction).toNat =
      (sign.toBitVec.toNat * 2 ^ 11 + exponent.toNat) * 2 ^ 52 + fraction.toNat := by
  change (sign.toBitVec ++ exponent ++ fraction).toNat = _
  rw [BitVec.toNat_append, BitVec.toNat_append, ← Nat.shiftLeft_add_eq_or_of_lt exponent.isLt,
    ← Nat.shiftLeft_add_eq_or_of_lt fraction.isLt, Nat.shiftLeft_eq, Nat.shiftLeft_eq]

theorem finite_eq {s s' : Sign} {m m' : Nat} {e e' : Int} {hm : 0 < m} {hm' : 0 < m'}
    (hsign : s = s') (hmantissa : m = m') (hexponent : e = e') :
    UnpackedFloat.finite s m e hm = .finite s' m' e' hm' := by
  subst hsign hmantissa hexponent
  rfl

namespace IsNormal

variable {m : Nat} {e : Int}

/-- A normal significand is stored without its leading bit. -/
theorem pack (h : IsNormal m) (sign : Sign) (he : -1074 ≤ e) (he' : e ≤ 971) :
    UnpackedFloat.pack Format.binary64 (.finite sign m e h.pos) =
      packComponents Format.binary64 sign (BitVec.ofNat 11 (e + 1075).toNat)
        (BitVec.ofNat 52 m) := by
  have hbias : e + (Format.binary64.exponentBias : Int) + (52 : Nat) = e + 1075 := by
    change e + 1023 + 52 = e + 1075
    omega
  have hsmall : ¬2 ^ 11 ≤ (e + 1075).toNat + 1 := by omega
  simp only [UnpackedFloat.pack, hbias, h.log2_eq]
  rw [if_neg hsmall]
  exact if_pos rfl

/-- What is packed is unpacked again. -/
theorem unpack_pack (h : IsNormal m) (sign : Sign) (he : -1074 ≤ e) (he' : e ≤ 971) :
    UnpackedFloat.unpack Format.binary64
        (UnpackedFloat.pack Format.binary64 (.finite sign m e h.pos)) =
      .finite sign m e h.pos := by
  have hexponent : (BitVec.ofNat 11 (e + 1075).toNat).toNat = (e + 1075).toNat := by
    rw [BitVec.toNat_ofNat]
    omega
  have hones : BitVec.ofNat 11 (e + 1075).toNat ≠ -1#11 := by
    rw [ne_eq, ← BitVec.toNat_inj, hexponent]
    change ¬(e + 1075).toNat = 2047
    omega
  have hzero : BitVec.ofNat 11 (e + 1075).toNat ≠ 0#11 := by
    rw [ne_eq, ← BitVec.toNat_inj, hexponent]
    change ¬(e + 1075).toNat = 0
    omega
  have hm : (1#1 ++ BitVec.ofNat 52 m).toNat = m := by
    have hlow := h.low
    have hhigh := h.high
    rw [BitVec.toNat_append, ← Nat.shiftLeft_add_eq_or_of_lt (BitVec.isLt _), Nat.shiftLeft_eq,
      BitVec.toNat_ofNat, BitVec.toNat_ofNat]
    omega
  have he'' : ((e + 1075).toNat : Int) - ((Format.binary64.exponentBias : Int) + (52 : Nat)) = e := by
    change ((e + 1075).toNat : Int) - (1023 + 52) = e
    omega
  rw [h.pack sign he he']
  refine (if_neg ?_).trans ((if_neg ?_).trans (finite_eq ?_ ?_ ?_))
  · rwa [unpackExponent_packComponents]
  · rwa [unpackExponent_packComponents]
  · rw [unpackSign_packComponents, Sign.ofBitVec_toBitVec]
  · rw [unpackMantissa_packComponents, hm]
  · rw [unpackExponent_packComponents, hexponent]
    exact he''

/-- A normal double is read as its significand and scale. -/
theorem reading (h : IsNormal m) (he : -1074 ≤ e) (he' : e ≤ 971) {x : Float}
    (hx : x.toModel = .pack (.finite .positive m e h.pos)) :
    signBit x.toBits = false ∧
      ∃ narrow, Reading.ofBits x.toBits = .finite ⟨m, e, narrow⟩ := by
  have hlow := h.low
  have hhigh := h.high
  have hbits : x.toBits.toNat = (e + 1075).toNat * 2 ^ 52 + m % 2 ^ 52 := by
    change x.toModel.toBits.toNat = _
    rw [hx]
    change (UnpackedFloat.pack Format.binary64 (.finite .positive m e h.pos)).toNat = _
    rw [h.pack .positive he he', toNat_packComponents, BitVec.toNat_ofNat, BitVec.toNat_ofNat]
    change (0 * 2 ^ 11 + (e + 1075).toNat % 2 ^ 11) * 2 ^ 52 + m % 2 ^ 52 = _
    omega
  have hexponent : x.toBits.toNat / Nat.pow 2 52 % Nat.pow 2 11 = (e + 1075).toNat := by
    change x.toBits.toNat / 2 ^ 52 % 2 ^ 11 = _
    omega
  have hfraction : Nat.pow 2 52 + x.toBits.toNat % Nat.pow 2 52 = m := by
    change 2 ^ 52 + x.toBits.toNat % 2 ^ 52 = m
    omega
  have hscale : ((e + 1075).toNat : Int) - 1075 = e := by omega
  constructor
  · have hsmall : ¬Nat.pow 2 63 ≤ x.toBits.toNat := by
      change ¬2 ^ 63 ≤ x.toBits.toNat
      omega
    exact decide_eq_false hsmall
  · have hones : ¬(e + 1075).toNat = 2047 := by omega
    have hzero : ¬(e + 1075).toNat = 0 := by omega
    refine ⟨x.toBits.toNat % Nat.pow 2 52 == 0 && 1 < (e + 1075).toNat, ?_⟩
    simp only [Reading.ofBits, hexponent, if_neg hones, Magnitude.ofFields, if_neg hzero,
      hfraction, hscale]

end IsNormal

/-! ## The double of a whole number -/

theorem round_whole {n : Nat} (hpos : 0 < n) (h : n < 2 ^ 53) :
    UnpackedFloat.round Format.binary64 .positive n 0 =
      .finite .positive (n * 2 ^ (52 - n.log2)) ((n.log2 : Int) - 52)
        (IsNormal.of_lt hpos h).pos := by
  have hlog : n.log2 < 53 := (Nat.log2_lt hpos.ne').mpr h
  have htarget : Format.binary64.targetExponent (totalExponent n 0) = (n.log2 : Int) - 52 := by
    simp only [Format.targetExponent, totalExponent, Format.mantissaBits, Format.minExponent]
    omega
  have hshift : (0 - ((n.log2 : Int) - 52)).toNat = 52 - n.log2 := by omega
  have hscale : (0 : Int) - (52 - n.log2 : Nat) = (n.log2 : Int) - 52 := by omega
  simp only [UnpackedFloat.round, htarget, decreaseExponent, hshift, hscale, Nat.shiftLeft_eq]
  simpa using (IsNormal.of_lt hpos h).roundWithAccuracy .positive 0 (e := (n.log2 : Int) - 52)
    (by omega)

/-- A positive number of few digits is converted as it is written. -/
theorem nearest_eq_ofScientific {n : Nat} (hpos : 0 < n) (hcount : digitCount n ≤ 310) :
    Scientific.nearest ⟨n, 0⟩ = Float.ofScientific n false 0 := by
  have hzero : ¬(n = 0 ∨ (digitCount n : Int) + 0 < -330) := by omega
  have hinfinite : ¬310 < (digitCount n : Int) + 0 := by omega
  simp only [Scientific.nearest, if_neg hzero, if_neg hinfinite]
  rfl

/-- A positive number below `2 ^ 53` is converted exactly. -/
theorem toModel_nearest {n : Nat} (hpos : 0 < n) (h : n < 2 ^ 53) :
    (Scientific.nearest ⟨n, 0⟩).toModel =
      .pack (.finite .positive (n * 2 ^ (52 - n.log2)) ((n.log2 : Int) - 52)
        (IsNormal.of_lt hpos h).pos) := by
  have hnormal := IsNormal.of_lt hpos h
  have hlog : n.log2 < 53 := (Nat.log2_lt hpos.ne').mpr h
  have hcount : digitCount n ≤ 16 :=
    (Nat.length_toDigits_le_iff (by decide) (by decide)).mpr (by omega)
  have hword : n.toUInt64.toNat = n := 
    UInt64.toNat_ofNat_of_lt' (h.trans (by decide))
  have hconverted : Float.Model.ofUInt64 n.toUInt64 =
      .pack (.finite .positive (n * 2 ^ (52 - n.log2)) ((n.log2 : Int) - 52) hnormal.pos) := by
    have hcompare : compare (n : Int) 0 = .gt := Int.compare_eq_gt.mpr (by omega)
    simp only [Float.Model.ofUInt64, UnpackedFloat.ofUInt64, UnpackedFloat.ofNat,
      UnpackedFloat.ofInt, UnpackedFloat.normalize, hword, hcompare, Int.toNat_natCast,
      round_whole hpos h]
  have hone : (Float.Model.ofBits 0x3ff0000000000000).unpack =
      .finite .positive (2 ^ 52) (-52) (by decide) := by
    rfl
  have hunpack := hnormal.unpack_pack .positive (e := (n.log2 : Int) - 52) (by omega) (by omega)
  have hround := hnormal.roundWithAccuracy .positive 52 (e := (n.log2 : Int) - 52) (by omega)
  rw [nearest_eq_ofScientific hpos (by omega), Float.ofScientific, dif_pos ⟨h, by decide⟩]
  change Float.Model.mul (Float.Model.ofUInt64 n.toUInt64) (Float.Model.ofBits 0x3ff0000000000000)
    = _
  rw [hconverted, Float.Model.mul, hone]
  change Float.Model.pack (UnpackedFloat.mul Format.binary64
    (UnpackedFloat.unpack Format.binary64 (UnpackedFloat.pack Format.binary64 _)) _) = _
  rw [hunpack]
  change Float.Model.pack (UnpackedFloat.roundWithAccuracy Format.binary64 .positive
    (n * 2 ^ (52 - n.log2) * 2 ^ 52) ((n.log2 : Int) - 52 + (-52)) .exact) = _
  exact congrArg Float.Model.pack hround

/-! ## The digits of a whole number -/

/-- The magnitude is that of a positive whole number, and the gaps to its neighbours are not greater
than one. -/
structure Magnitude.IsWhole (x : Magnitude) (n : Nat) : Prop where
  pos : 0 < n
  scale_nonpos : x.scale ≤ 0
  significand_eq : x.significand = n * Nat.pow 2 (-x.scale).toNat

namespace Magnitude.IsWhole

variable {x : Magnitude} {n : Nat}

/-- The interval reaches less than a unit to either side of the number. -/
theorem basin_eq (h : x.IsWhole n) :
    4 ≤ x.basin.denominator ∧ x.basin.value = n * x.basin.denominator ∧
      x.basin.low < x.basin.value ∧ x.basin.value ≤ x.basin.low + 2 ∧
      x.basin.high = x.basin.value + 2 := by
  have hup : Nat.pow 2 x.scale.toNat = 1 := by
    rw [Int.toNat_of_nonpos h.scale_nonpos, Nat.pow_eq, Nat.pow_zero]
  have hpow : 0 < Nat.pow 2 (-x.scale).toNat := Nat.two_pow_pos _
  have hpos : 0 < x.significand := h.significand_eq ▸ Nat.mul_pos h.pos hpow
  simp only [basin, hup, Nat.mul_one]
  refine ⟨by omega, ?_, by split <;> omega, by split <;> omega, trivial⟩
  rw [h.significand_eq, Nat.mul_left_comm]

/-- The only whole number that rounds to a whole number is the number itself. -/
theorem contains_iff (h : x.IsWhole n) (coefficient places : Nat) :
    x.basin.contains ⟨coefficient, places⟩ = true ↔ coefficient * Nat.pow 10 places = n := by
  obtain ⟨hgap, hvalue, hlow, hlow', hhigh⟩ := h.basin_eq
  have hdown : Nat.pow 10 (-(places : Int)).toNat = 1 := by
    rw [Int.toNat_neg_natCast, Nat.pow_eq, Nat.pow_zero]
  simp only [Basin.contains, Int.toNat_natCast, hdown, Nat.mul_one]
  generalize coefficient * Nat.pow 10 places = point
  have hbelow : point < n → point * x.basin.denominator + x.basin.denominator ≤ x.basin.value := by
    intro hlt
    rw [hvalue, ← Nat.succ_mul]
    exact Nat.mul_le_mul_right _ hlt
  have habove : n < point → x.basin.value + x.basin.denominator ≤ point * x.basin.denominator := by
    intro hlt
    rw [hvalue, ← Nat.succ_mul]
    exact Nat.mul_le_mul_right _ hlt
  have hequal : point = n → point * x.basin.denominator = x.basin.value := by
    rintro rfl
    exact hvalue.symm
  split
  · simp only [Bool.and_eq_true, decide_eq_true_eq]
    omega
  · simp only [Bool.and_eq_true, decide_eq_true_eq]
    omega

/-- A coarser grid is hit just by the numbers that lie on it. -/
theorem onGrid_eq (h : x.IsWhole n) (places : Nat) :
    x.basin.onGrid places =
      if Nat.pow 10 places ∣ n then some ⟨n / Nat.pow 10 places, places⟩ else none := by
  obtain ⟨hgap, hvalue, -⟩ := h.basin_eq
  have hpow : 0 < Nat.pow 10 places := Nat.pow_pos (by decide)
  have hdown : Nat.pow 10 (-(places : Int)).toNat = 1 := by
    rw [Int.toNat_neg_natCast, Nat.pow_eq, Nat.pow_zero]
  have hquotient : x.basin.value / (x.basin.denominator * Nat.pow 10 places) =
      n / Nat.pow 10 places := by
    rw [hvalue, Nat.mul_comm n, Nat.mul_div_mul_left _ _ (by omega)]
  have hupper : x.basin.contains ⟨n / Nat.pow 10 places + 1, places⟩ = false := by
    rw [Bool.eq_false_iff, ne_eq, h.contains_iff]
    have := Nat.lt_mul_div_succ n hpow
    rw [Nat.mul_comm] at this
    omega
  have hlower := h.contains_iff (n / Nat.pow 10 places) places
  simp only [Basin.onGrid, Int.toNat_natCast, hdown, Nat.mul_one, hquotient, hupper]
  by_cases hdvd : Nat.pow 10 places ∣ n
  · rw [if_pos hdvd, hlower.mpr (Nat.div_mul_cancel hdvd)]
  · have hmiss : x.basin.contains ⟨n / Nat.pow 10 places, places⟩ = false := by
      rw [Bool.eq_false_iff, ne_eq, hlower]
      intro hmul
      exact hdvd ⟨_, by rw [Nat.mul_comm, hmul]⟩
    rw [if_neg hdvd, hmiss]

theorem order_eq (h : x.IsWhole n) : x.basin.order = digitCount n := by
  obtain ⟨hgap, hvalue, -⟩ := h.basin_eq
  have hle : x.basin.denominator ≤ x.basin.value := by
    rw [hvalue]
    exact Nat.le_mul_of_pos_left _ h.pos
  rw [Basin.order, if_pos hle, hvalue, Nat.mul_div_cancel _ (by omega)]

/-- The fewest digits of a whole number are its own, up to zeros at their end: the grids are walked
down to that of the whole numbers, where the number itself is found at last. -/
theorem exists_shortest (h : x.IsWhole n) (hcount : digitCount n ≤ 17) :
    ∃ coefficient places : Nat, x.shortest = ⟨coefficient, places⟩ ∧
      coefficient * Nat.pow 10 places = n := by
  have hsignificand : ¬x.significand = 0 := by
    rw [h.significand_eq]
    exact (Nat.mul_pos h.pos (Nat.two_pow_pos _)).ne'
  have hcountpos : 0 < digitCount n := Nat.length_toDigits_pos
  -- the grids as coarse as the whole numbers or coarser come first
  let coarse := (List.range (digitCount n)).map fun i => x.basin.order - (i + 1 : Nat)
  let fine := ((List.range (17 - digitCount n)).map (digitCount n + ·)).map
    fun i => x.basin.order - (i + 1 : Nat)
  have hgrids : (List.range 17).map (fun i => x.basin.order - (i + 1 : Nat)) = coarse ++ fine := by
    rw [← List.map_append, ← List.range_add, Nat.add_sub_cancel' hcount]
  have hcoarse : ∀ e ∈ coarse, ∃ places : Nat, e = places := by
    intro e he
    obtain ⟨i, hi, rfl⟩ := List.mem_map.mp he
    have hlt := List.mem_range.mp hi
    refine ⟨digitCount n - (i + 1), ?_⟩
    rw [h.order_eq]
    omega
  have hzero : ((0 : Nat) : Int) ∈ coarse := by
    refine List.mem_map.mpr ⟨digitCount n - 1, List.mem_range.mpr (by omega), ?_⟩
    rw [h.order_eq]
    omega
  have hfound : (coarse.findSome? x.basin.onGrid).isSome = true := by
    rw [List.findSome?_isSome_iff]
    refine ⟨_, hzero, ?_⟩
    rw [h.onGrid_eq, if_pos ⟨n, (Nat.one_mul n).symm⟩]
    rfl
  obtain ⟨d, hd⟩ := Option.isSome_iff_exists.mp hfound
  obtain ⟨e, he, hgrid⟩ := List.exists_of_findSome?_eq_some hd
  obtain ⟨places, rfl⟩ := hcoarse e he
  rw [h.onGrid_eq] at hgrid
  split at hgrid
  · next hdvd =>
      cases hgrid
      refine ⟨n / Nat.pow 10 places, places, ?_, Nat.div_mul_cancel hdvd⟩
      simp only [shortest, if_neg hsignificand, hgrids, List.findSome?_append, hd,
        Option.some_or, Option.getD_some]
  · cases hgrid

/-- A whole number is written with its digits. -/
theorem positional_shortest (h : x.IsWhole n) (hcount : digitCount n ≤ 17) :
    x.shortest.positional = Nat.toDigits 10 n := by
  obtain ⟨coefficient, places, hshortest, hvalue⟩ := h.exists_shortest hcount
  rw [hshortest]
  simp only [Scientific.positional, Int.toNat_natCast, Int.toNat_neg_natCast, hvalue, stripZeros,
    fixedText, if_true]
  exact congrArg _ (Nat.div_one n)

end Magnitude.IsWhole

/-- Up to `2 ^ 53` a whole number is written with its digits. -/
theorem text_nearest {n : Nat} (h : n ≤ 2 ^ 53) :
    (text (Scientific.nearest ⟨n, 0⟩)).toList = Nat.toDigits 10 n := by
  rcases Nat.eq_zero_or_pos n with rfl | hpos
  · rfl
  rcases h.lt_or_eq with hlt | rfl
  · have hnormal := IsNormal.of_lt hpos hlt
    have hlog : n.log2 < 53 := (Nat.log2_lt hpos.ne').mpr hlt
    obtain ⟨hsign, narrow, hreading⟩ :=
      hnormal.reading (by omega) (by omega) (toModel_nearest hpos hlt)
    have hwhole : Magnitude.IsWhole ⟨n * 2 ^ (52 - n.log2), (n.log2 : Int) - 52, narrow⟩ n := by
      have hscale : (-((n.log2 : Int) - 52)).toNat = 52 - n.log2 := by omega
      have hnonpos : (n.log2 : Int) - 52 ≤ 0 := by omega
      exact ⟨hpos, hnonpos, by rw [hscale]; rfl⟩
    have hcount : digitCount n ≤ 17 :=
      (Nat.length_toDigits_le_iff (by decide) (by decide)).mpr (by omega)
    rw [text, hsign, hreading, String.toList_ofList]
    exact hwhole.positional_shortest hcount
  · rfl

/-- The next whole number is no double, and the one below it is written in its place. -/
example : text (Scientific.nearest ⟨2 ^ 53 + 1, 0⟩) = "9007199254740992" := by decide

end TaskFarm.Decimal
