import Mathlib.Algebra.Group.Nat.Defs
import Mathlib.Data.List.Induction
import TaskFarm.Wire.Codec

/-!
# Written identifiers

An identifier of 128 bits is written with thirty-two hexadecimal digits, in five groups that are
joined by hyphens, and it is read back from them.  What is read from any of the accepted spellings
has 128 bits, since each spelling holds thirty-two digits.
-/

namespace TaskFarm.Wire

open Json (hexDigit? hexValue?)

/-! ## Hexadecimal digits -/

theorem hexDigit?_digitChar {d : Nat} (h : d < 16) : hexDigit? (Nat.digitChar d) = some d := by
  have hall : ∀ d : Fin 16, hexDigit? (Nat.digitChar d) = some d.val := by decide
  exact hall ⟨d, h⟩

theorem hexDigit?_lt {c : Char} {d : Nat} (h : hexDigit? c = some d) : d < 16 := by
  have hcode : ∀ {high : Char}, c ≤ high → c.toNat ≤ high.toNat :=
    fun hle => UInt32.le_iff_toNat_le.mp (Char.le_def.mp hle)
  unfold hexDigit? at h
  split at h
  · next hc =>
    cases h
    have : c.toNat ≤ 57 := hcode hc.2
    have : '0'.toNat = 48 := rfl
    omega
  split at h
  · next hc =>
    cases h
    have : c.toNat ≤ 102 := hcode hc.2
    have : 'a'.toNat = 97 := rfl
    omega
  split at h
  · next hc =>
    cases h
    have : c.toNat ≤ 70 := hcode hc.2
    have : 'A'.toNat = 65 := rfl
    omega
  · cases h

/-- One more digit multiplies by sixteen what the digits before it spell. -/
theorem hexValue?_concat (digits : List Char) (c : Char) :
    hexValue? (digits ++ [c]) =
      (hexValue? digits).bind fun value => (hexDigit? c).map fun digit => 16 * value + digit := by
  simp [hexValue?, List.foldlM_append]

theorem hexValue?_lt {digits : List Char} {n : Nat} (h : hexValue? digits = some n) :
    n < 16 ^ digits.length := by
  induction digits using List.reverseRecOn generalizing n with
  | nil =>
      cases h
      decide
  | append_singleton digits c ih =>
      rw [hexValue?_concat] at h
      obtain ⟨value, hvalue, h⟩ := Option.bind_eq_some_iff.mp h
      obtain ⟨digit, hdigit, rfl⟩ := Option.map_eq_some_iff.mp h
      have hlt := ih hvalue
      have hlt' := hexDigit?_lt hdigit
      rw [List.length_append, List.length_singleton, Nat.pow_succ]
      omega

theorem length_hexDigits (count n : Nat) : (hexDigits count n).length = count := by
  induction count generalizing n with
  | zero => rfl
  | succ count ih => rw [hexDigits, List.length_append, ih, List.length_singleton]

theorem mem_hexDigits {count n : Nat} {c : Char} (h : c ∈ hexDigits count n) :
    ∃ d < 16, c = Nat.digitChar d := by
  induction count generalizing n with
  | zero => cases h
  | succ count ih =>
      rw [hexDigits, List.mem_append] at h
      rcases h with h | h
      · exact ih h
      · exact ⟨n % 16, Nat.mod_lt n (by decide), List.mem_singleton.mp h⟩

/-- The last digits of a number spell its remainder. -/
theorem hexValue?_hexDigits (count n : Nat) :
    hexValue? (hexDigits count n) = some (n % 16 ^ count) := by
  induction count generalizing n with
  | zero => simp [hexDigits, hexValue?, Nat.mod_one]
  | succ count ih =>
      have hdigit := hexDigit?_digitChar (Nat.mod_lt n (by decide : 0 < 16))
      rw [hexDigits, hexValue?_concat, ih, hdigit, Nat.pow_succ', Nat.mod_mul, Nat.add_comm]
      rfl

/-! ## Groups -/

/-- Five groups of digits that are joined by hyphens. -/
def joined (a b c d e : List Char) : List Char :=
  a ++ '-' :: b ++ '-' :: c ++ '-' :: d ++ '-' :: e

theorem mem_joined {a b c d e : List Char} {x : Char} (h : x ∈ joined a b c d e) :
    x = '-' ∨ x ∈ a ++ b ++ c ++ d ++ e := by
  simp only [joined, List.mem_append, List.mem_cons] at h ⊢
  grind

/-- Groups of the right lengths are read as the digits in them. -/
theorem hyphenated?_joined {a b c d e : List Char} (ha : a.length = 8) (hb : b.length = 4)
    (hc : c.length = 4) (hd : d.length = 4) (he : e.length = 12) :
    hyphenated? (joined a b c d e) = uuidDigits? (a ++ b ++ c ++ d ++ e) := by
  have hlength : (joined a b c d e).length = 36 := by simp [joined, ha, hb, hc, hd, he]
  have hhyphens : (joined a b c d e)[8]? = some '-' ∧ (joined a b c d e)[13]? = some '-' ∧
      (joined a b c d e)[18]? = some '-' ∧ (joined a b c d e)[23]? = some '-' := by
    simp [joined, List.getElem?_append, ha, hb, hc, hd]
  have hgroups : (joined a b c d e).take 8 = a ∧ ((joined a b c d e).drop 9).take 4 = b ∧
      ((joined a b c d e).drop 14).take 4 = c ∧ ((joined a b c d e).drop 19).take 4 = d ∧
      (joined a b c d e).drop 24 = e := by
    simp [joined, List.drop_append, ha, hb, hc, hd, List.drop_of_length_le]
  obtain ⟨h8, h13, h18, h23⟩ := hhyphens
  obtain ⟨hfirst, hsecond, hthird, hfourth, hfifth⟩ := hgroups
  simp only [hyphenated?, hlength, h8, h13, h18, h23, hfirst, hsecond, hthird, hfourth, hfifth,
    beq_self_eq_true, and_self, if_true]

/-- The digits of an identifier stand in five groups. -/
theorem toList_uuidText (n : Nat) : ∃ a b c d e, (uuidText n).toList = joined a b c d e ∧
    a ++ b ++ c ++ d ++ e = hexDigits 32 n ∧
    a.length = 8 ∧ b.length = 4 ∧ c.length = 4 ∧ d.length = 4 ∧ e.length = 12 := by
  have hlength := length_hexDigits 32 n
  refine ⟨_, _, _, _, _, String.toList_ofList, ?_, by simp [hlength]⟩
  have hlast : ((hexDigits 32 n).drop 20).take 12 = (hexDigits 32 n).drop 20 :=
    List.take_of_length_le (by simp [hlength])
  have hsplit : ∀ i j, (hexDigits 32 n).take i ++ ((hexDigits 32 n).drop i).take j =
      (hexDigits 32 n).take (i + j) := fun _ _ => List.take_add.symm
  dsimp only
  rw [hlast, List.drop_zero, hsplit 8 4, hsplit 12 4, hsplit 16 4, List.take_append_drop]

/-- An identifier is written with hexadecimal digits and hyphens. -/
theorem mem_uuidText {n : Nat} {c : Char} (h : c ∈ (uuidText n).toList) :
    c = '-' ∨ ∃ d < 16, c = Nat.digitChar d := by
  obtain ⟨a, b, c', d, e, htext, hdigits, -⟩ := toList_uuidText n
  rw [htext] at h
  have hgroups := mem_joined h
  rw [hdigits] at hgroups
  exact hgroups.imp_right mem_hexDigits

/-- What is written for an identifier of 128 bits is read back. -/
theorem uuid?_uuidText {n : Nat} (h : n < 2 ^ 128) : uuid? (uuidText n) = some n := by
  obtain ⟨a, b, c, d, e, htext, hdigits, ha, hb, hc, hd, he⟩ := toList_uuidText n
  have hlength : (joined a b c d e).length = 36 := by simp [joined, ha, hb, hc, hd, he]
  have hvalue : n % 16 ^ 32 = n := Nat.mod_eq_of_lt h
  calc
    uuid? (uuidText n) = hyphenated? (joined a b c d e) := by simp [uuid?, htext, hlength]
    _ = hexValue? (hexDigits 32 n) := by
      rw [hyphenated?_joined ha hb hc hd he, hdigits, uuidDigits?, if_pos (length_hexDigits 32 n)]
    _ = some n := by rw [hexValue?_hexDigits, hvalue]

theorem uuidDigits?_lt {digits : List Char} {n : Nat} (h : uuidDigits? digits = some n) :
    n < 2 ^ 128 := by
  unfold uuidDigits? at h
  split at h
  · next hlength =>
    have hlt := hexValue?_lt h
    rw [hlength] at hlt
    exact hlt
  · cases h

theorem hyphenated?_lt {cs : List Char} {n : Nat} (h : hyphenated? cs = some n) :
    n < 2 ^ 128 := by
  simp only [hyphenated?] at h
  split at h
  · exact uuidDigits?_lt h
  · cases h

/-- What is read of any spelling has 128 bits. -/
theorem uuid?_lt {text : String} {n : Nat} (h : uuid? text = some n) : n < 2 ^ 128 := by
  simp only [uuid?] at h
  split at h
  · exact uuidDigits?_lt h
  split at h
  · exact hyphenated?_lt h
  split at h
  · exact hyphenated?_lt h
  split at h
  · exact hyphenated?_lt h
  · cases h

end TaskFarm.Wire
