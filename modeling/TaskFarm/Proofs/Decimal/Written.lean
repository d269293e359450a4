import Mathlib
import TaskFarm.Decimal.Positional
import TaskFarm.Proofs.Expr.Infix

/-!
# Written doubles

A finite double is written with digits and at most one point, behind a minus if its sign bit is set.
Such a text is always a numeral.  Infinities and what is not a number are written with letters.
-/

namespace TaskFarm.Decimal

/-! ## Digits with at most one point -/

/-- Digits, which may go on with a point and more digits. -/
inductive Plain : List Char → Prop
  | whole {digits : List Char} : digits ≠ [] → (∀ c ∈ digits, isDigit c = true) → Plain digits
  | point {digits fraction : List Char} : digits ≠ [] → (∀ c ∈ digits, isDigit c = true) →
      (∀ c ∈ fraction, isDigit c = true) → Plain (digits ++ '.' :: fraction)

theorem isDigit_eq_isDigit (c : Char) : isDigit c = c.isDigit := by
  simp only [isDigit, Char.isDigit, Char.le_def, ge_iff_le]

theorem isDigit_of_mem_toDigits {n : Nat} {c : Char} (h : c ∈ Nat.toDigits 10 n) :
    isDigit c = true :=
  (isDigit_eq_isDigit c).trans (Nat.isDigit_of_mem_toDigits (by decide) (by decide) h)

theorem isDigit_of_mem_paddedDigits {width n : Nat} {c : Char} (h : c ∈ paddedDigits width n) :
    isDigit c = true := by
  rcases List.mem_append.mp h with h | h
  · rw [List.eq_of_mem_replicate h]
    decide
  · exact isDigit_of_mem_toDigits h

theorem plain_fixedText (places coefficient : Nat) : Plain (fixedText places coefficient) := by
  unfold fixedText
  split
  · exact .whole Nat.toDigits_ne_nil fun c hc => isDigit_of_mem_toDigits hc
  · exact .point Nat.toDigits_ne_nil (fun c hc => isDigit_of_mem_toDigits hc)
      fun c hc => isDigit_of_mem_paddedDigits hc

theorem plain_positional (d : Scientific) : Plain d.positional :=
  plain_fixedText _ _

/-- Digits alone are the magnitude that they spell. -/
theorem readMagnitude_digits {digits : List Char} (hne : digits ≠ [])
    (hdigits : ∀ c ∈ digits, isDigit c = true) :
    readMagnitude digits = some ⟨digitsValue digits, 0⟩ := by
  have htake := List.takeWhile_eq_self_iff.mpr hdigits
  have hdrop := List.dropWhile_eq_nil_iff.mpr hdigits
  simp [readMagnitude, htake, hdrop, hne, readExponent]

namespace Plain

variable {cs : List Char}

theorem digit_or_point (h : Plain cs) {c : Char} (hc : c ∈ cs) : isDigit c = true ∨ c = '.' := by
  cases h with
  | whole _ hdigits => exact .inl (hdigits c hc)
  | point _ hdigits hfraction =>
      rcases List.mem_append.mp hc with hc | hc
      · exact .inl (hdigits c hc)
      · rcases List.mem_cons.mp hc with rfl | hc
        · exact .inr rfl
        · exact .inl (hfraction c hc)

theorem exists_cons (h : Plain cs) : ∃ c rest, cs = c :: rest ∧ isDigit c = true := by
  cases h with
  | whole hne hdigits =>
      obtain ⟨c, rest, rfl⟩ := List.exists_cons_of_ne_nil hne
      exact ⟨c, rest, rfl, hdigits c (by simp)⟩
  | point hne hdigits _ =>
      obtain ⟨c, rest, rfl⟩ := List.exists_cons_of_ne_nil hne
      exact ⟨c, _, rfl, hdigits c (by simp)⟩

/-- Digits with at most one point have a magnitude. -/
theorem readMagnitude (h : Plain cs) : ∃ d, readMagnitude cs = some d := by
  cases h with
  | whole hne hdigits => exact ⟨_, readMagnitude_digits hne hdigits⟩
  | @point digits fraction hne hdigits hfraction =>
      obtain ⟨htake, hdrop⟩ : (digits ++ '.' :: fraction).takeWhile isDigit = digits ∧
          (digits ++ '.' :: fraction).dropWhile isDigit = '.' :: fraction :=
        Expr.cut_append isDigit hdigits (by simp; decide)
      have htake' := List.takeWhile_eq_self_iff.mpr hfraction
      have hdrop' := List.dropWhile_eq_nil_iff.mpr hfraction
      refine ⟨⟨digitsValue (digits ++ fraction), -(fraction.length : Int)⟩, ?_⟩
      simp [Decimal.readMagnitude, htake, hdrop, htake', hdrop', hne, readExponent]

/-- No word that begins with a letter is a plain text in small letters. -/
theorem lower_ne (h : Plain cs) {word : String} {first : Char} {others : List Char}
    (hword : word.toList = first :: others) (hfirst : isDigit first = false) :
    String.ofList (cs.map Char.toLower) ≠ word := by
  obtain ⟨c, rest, rfl, hc⟩ := h.exists_cons
  rintro rfl
  have hlower : c.toLower = c := by
    have hcode : ¬(c.val ≥ 'A'.val ∧ c.val ≤ 'Z'.val) := by
      simp only [isDigit, Bool.and_eq_true, decide_eq_true_eq, Char.le_def] at hc
      intro hupper
      exact absurd (UInt32.le_trans hupper.1 hc.2) (by decide)
    exact dif_neg hcode
  rw [String.toList_ofList, List.map_cons, hlower] at hword
  obtain ⟨rfl, -⟩ := List.cons.inj hword
  rw [hc] at hfirst
  cases hfirst

/-- A plain text is read by its magnitude, and a minus in front of it is its sign. -/
theorem read?_eq (h : Plain cs) (negative : Bool) :
    Numeral.read? ((if negative then ['-'] else []) ++ cs) =
      (Decimal.readMagnitude cs).map (.finite negative) := by
  have hsign : splitSign ((if negative then ['-'] else []) ++ cs) = (negative, cs) := by
    cases negative with
    | true => rfl
    | false =>
        obtain ⟨c, rest, rfl, hc⟩ := h.exists_cons
        have hminus : c ≠ '-' := by
          rintro rfl
          exact absurd hc (by decide)
        have hplus : c ≠ '+' := by
          rintro rfl
          exact absurd hc (by decide)
        simp [splitSign, hminus, hplus]
  have hnan := h.lower_ne (rfl : "nan".toList = 'n' :: _) (by decide)
  have hinf := h.lower_ne (rfl : "inf".toList = 'i' :: _) (by decide)
  have hinfinity := h.lower_ne (rfl : "infinity".toList = 'i' :: _) (by decide)
  simp [Numeral.read?, hsign, hnan, hinf, hinfinity]

/-- A plain text reads as a number, and behind a minus as a negative one. -/
theorem read? (h : Plain cs) (negative : Bool) :
    ∃ d, Numeral.read? ((if negative then ['-'] else []) ++ cs) =
      some (.finite negative d) := by
  obtain ⟨d, hd⟩ := h.readMagnitude
  exact ⟨d, by rw [h.read?_eq, hd]; rfl⟩

end Plain

/-! ## Doubles -/

open Float.Model (Format UnpackedFloat) in
/-- Bits are those of a finite double unless their exponent field is all ones. -/
theorem isFinite_unpack_iff {bits : BitVec 64} :
    (UnpackedFloat.unpack Format.binary64 bits).isFinite = true ↔
      @UnpackedFloat.unpackExponent Format.binary64 bits ≠ -1#11 := by
  unfold UnpackedFloat.unpack
  by_cases h : @UnpackedFloat.unpackExponent Format.binary64 bits = -1#11
  · simp only [if_pos h]
    split <;> simp [UnpackedFloat.isFinite, h]
  · simp only [if_neg h]
    refine ⟨fun _ => h, fun _ => ?_⟩
    split
    · split <;> rfl
    · rfl

open Float.Model (Format UnpackedFloat) in
/-- A double is finite just if it is read as a magnitude. -/
theorem isFinite_iff {x : Float} :
    x.isFinite = true ↔ ∃ m, Reading.ofBits x.toBits = .finite m := by
  have hfield : (@UnpackedFloat.unpackExponent Format.binary64 x.toBits.toBitVec).toNat =
      x.toBits.toNat / Nat.pow 2 52 % Nat.pow 2 11 := by
    rw [UnpackedFloat.unpackExponent, BitVec.toNat_cast, BitVec.extractLsb_toNat,
      Nat.shiftRight_eq_div_pow]
    rfl
  have hones : @UnpackedFloat.unpackExponent Format.binary64 x.toBits.toBitVec = -1#11 ↔
      x.toBits.toNat / Nat.pow 2 52 % Nat.pow 2 11 = 2047 := by
    rw [← hfield, ← BitVec.toNat_inj]
    rfl
  refine isFinite_unpack_iff.trans ((not_congr hones).trans ?_)
  rw [Reading.ofBits]
  by_cases h : x.toBits.toNat / Nat.pow 2 52 % Nat.pow 2 11 = 2047
  · simp only [if_pos h]
    split <;> simp [h]
  · simp [h]

/-- A finite double is written plainly, behind a minus if its sign bit is set. -/
theorem text_of_isFinite {x : Float} (h : x.isFinite = true) :
    ∃ body, Plain body ∧
      (text x).toList = (if signBit x.toBits then ['-'] else []) ++ body := by
  obtain ⟨m, hm⟩ := isFinite_iff.mp h
  exact ⟨_, plain_positional m.shortest, by simp [text, hm, Reading.text]⟩

/-- What is written of a finite double is a numeral. -/
theorem exists_parse?_text {x : Float} (h : x.isFinite = true) :
    ∃ y, parse? (text x) = some y := by
  obtain ⟨body, hbody, htext⟩ := text_of_isFinite h
  obtain ⟨d, hd⟩ := hbody.read? (signBit x.toBits)
  exact ⟨_, by rw [parse?, htext, hd]; rfl⟩

/-- A double that is not finite is written with a letter. -/
theorem exists_letter_of_not_isFinite {x : Float} (h : x.isFinite = false) :
    ∃ c ∈ (text x).toList, c = 'N' ∨ c = 'i' := by
  cases hreading : Reading.ofBits x.toBits with
  | notANumber => exact ⟨'N', by simp [text, hreading, Reading.text], .inl rfl⟩
  | infinite => exact ⟨'i', by simp [text, hreading, Reading.text], .inr rfl⟩
  | finite m =>
      rw [isFinite_iff.mpr ⟨m, hreading⟩] at h
      cases h

end TaskFarm.Decimal
