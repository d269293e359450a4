import Mathlib.Algebra.Group.Nat.Defs
import TaskFarm.Wire.JsonText

/-!
# What a JSON text can spell

A text spells no number that is too large: what the reader takes for an integer fits 64 bits, and a
number that no finite double is near to is refused.  This holds of every number in a value, however
deep it lies.
-/

namespace TaskFarm.Wire.Json

/-- A value that can be stored: the integers in it fit 64 bits, and the doubles are finite. -/
inductive Storable : Json → Prop
  | null : Storable .null
  | boolean (value : Bool) : Storable (.boolean value)
  | natural {n : Nat} : n < 2 ^ 64 → Storable (.natural n)
  | negative {n : Nat} : 0 < n → n ≤ 2 ^ 63 → Storable (.negative n)
  | float {x : Float} : x.isFinite = true → Storable (.float x)
  | string (text : String) : Storable (.string text)
  | array {items : List Json} : (∀ item ∈ items, Storable item) → Storable (.array items)
  | object {fields : List (String × Json)} : (∀ entry ∈ fields, Storable entry.2) →
      Storable (.object fields)

variable {fuel : Nat} {cs rest : List Char} {j : Json}

theorem storable_number? (h : number? cs = some j) : j.Storable := by
  unfold number? at h
  split at h
  split at h
  · cases h
  split at h
  · cases h
  dsimp only at h
  split at h
  · next hvalue =>
    cases h
    simp only [Bool.and_eq_true, decide_eq_true_eq] at hvalue
    exact .natural hvalue.2
  split at h
  · next hvalue =>
    cases h
    simp only [Bool.and_eq_true, decide_eq_true_eq, UInt64.size] at hvalue
    exact .negative hvalue.1.2 (by omega)
  · obtain ⟨numeral, -, h⟩ := Option.bind_eq_some_iff.mp h
    split at h
    · next hfinite =>
      cases h
      exact .float hfinite
    · cases h

theorem storable_readWord (h : readWord cs = some (j, rest)) : j.Storable := by
  unfold readWord at h
  split at h
  · cases h
    exact .null
  split at h
  · cases h
    exact .boolean true
  split at h
  · cases h
    exact .boolean false
  · obtain ⟨value, hvalue, hpair⟩ := Option.map_eq_some_iff.mp h
    cases hpair
    exact storable_number? hvalue

/-- One unit of fuel: a value is stored if its parts are. -/
theorem storable_readValue_succ
    (hitems : ∀ {cs items rest}, readItems fuel cs = some (items, rest) →
      ∀ item ∈ items, Storable item)
    (hfields : ∀ {cs fields rest}, readFields fuel cs = some (fields, rest) →
      ∀ entry ∈ fields, Storable entry.2)
    (h : readValue (fuel + 1) cs = some (j, rest)) : j.Storable := by
  rw [readValue] at h
  split at h
  · obtain ⟨parts, -, hpair⟩ := Option.map_eq_some_iff.mp h
    cases hpair
    exact .string _
  · split at h
    · cases h
      exact .array (by simp)
    · obtain ⟨parts, hread, hpair⟩ := Option.map_eq_some_iff.mp h
      cases hpair
      exact .array (hitems hread)
  · split at h
    · cases h
      exact .object (by simp)
    · obtain ⟨parts, hread, hpair⟩ := Option.map_eq_some_iff.mp h
      cases hpair
      exact .object (hfields hread)
  · exact storable_readWord h

theorem storable_readItems_succ
    (hvalue : ∀ {cs j rest}, readValue fuel cs = some (j, rest) → Storable j)
    (hitems : ∀ {cs items rest}, readItems fuel cs = some (items, rest) →
      ∀ item ∈ items, Storable item) {items : List Json}
    (h : readItems (fuel + 1) cs = some (items, rest)) : ∀ item ∈ items, item.Storable := by
  rw [readItems] at h
  obtain ⟨⟨item, rest'⟩, hread, h⟩ := Option.bind_eq_some_iff.mp h
  dsimp only at h
  split at h
  · cases h
    simpa using hvalue hread
  · obtain ⟨⟨items', rest''⟩, hread', hpair⟩ := Option.map_eq_some_iff.mp h
    cases hpair
    exact List.forall_mem_cons.mpr ⟨hvalue hread, hitems hread'⟩
  · cases h

theorem storable_readFields_succ
    (hvalue : ∀ {cs j rest}, readValue fuel cs = some (j, rest) → Storable j)
    (hfields : ∀ {cs fields rest}, readFields fuel cs = some (fields, rest) →
      ∀ entry ∈ fields, Storable entry.2) {fields : List (String × Json)}
    (h : readFields (fuel + 1) cs = some (fields, rest)) :
    ∀ entry ∈ fields, entry.2.Storable := by
  rw [readFields] at h
  split at h
  · obtain ⟨⟨name, rest'⟩, -, h⟩ := Option.bind_eq_some_iff.mp h
    dsimp only at h
    split at h
    · obtain ⟨⟨value, rest''⟩, hread, h⟩ := Option.bind_eq_some_iff.mp h
      dsimp only at h
      split at h
      · cases h
        simpa using hvalue hread
      · obtain ⟨⟨fields', rest'''⟩, hread', hpair⟩ := Option.map_eq_some_iff.mp h
        cases hpair
        exact List.forall_mem_cons.mpr ⟨hvalue hread, hfields hread'⟩
      · cases h
    · cases h
  · cases h

/-- With any fuel the reader gives values that can be stored. -/
theorem storable_read (fuel : Nat) :
    (∀ {cs j rest}, readValue fuel cs = some (j, rest) → Storable j) ∧
    (∀ {cs items rest}, readItems fuel cs = some (items, rest) → ∀ item ∈ items, Storable item) ∧
    ∀ {cs fields rest}, readFields fuel cs = some (fields, rest) →
      ∀ entry ∈ fields, Storable entry.2 := by
  induction fuel with
  | zero => exact ⟨by simp [readValue], by simp [readItems], by simp [readFields]⟩
  | succ fuel ih =>
      obtain ⟨hvalue, hitems, hfields⟩ := ih
      exact ⟨storable_readValue_succ hitems hfields, storable_readItems_succ hvalue hitems,
        storable_readFields_succ hvalue hfields⟩

/-- What a text spells can be stored. -/
theorem storable_of_parse? {text : String} (h : parse? text = some j) : j.Storable := by
  simp only [parse?] at h
  split at h
  · next value rest hread =>
    split at h
    · cases h
      exact (storable_read _).1 hread
    · cases h
  · cases h

end TaskFarm.Wire.Json
