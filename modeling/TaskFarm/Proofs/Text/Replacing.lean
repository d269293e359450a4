import Mathlib.Data.List.Basic

/-!
# Replacing parts of a text

Some parts of a text, which may be taken as its characters or as its rows, are replaced by others,
from the left to the right.  What is to be replaced is told by the length that it has at the front
of a text, which is zero if it does not stand there.
-/

namespace TaskFarm.Text

variable {α : Type} {length : List α → Nat} {replacement : List α}

/-- A text with each part replaced that is found by its length, once as much in front is passed as
was replaced already. -/
def replacedBehind (length : List α → Nat) (replacement : List α) : Nat → List α → List α
  | _, [] => []
  | passed + 1, _ :: rest => replacedBehind length replacement passed rest
  | 0, c :: rest =>
    match length (c :: rest) with
    | 0 => c :: replacedBehind length replacement 0 rest
    | more + 1 => replacement ++ replacedBehind length replacement more rest

/-- A text with each part replaced that is found by its length. -/
def replaced (length : List α → Nat) (replacement : List α) (cs : List α) : List α :=
  replacedBehind length replacement 0 cs

@[simp] theorem replaced_nil : replaced length replacement [] = [] := rfl

theorem replacedBehind_append (part rest : List α) :
    replacedBehind length replacement part.length (part ++ rest) =
      replaced length replacement rest := by
  induction part with
  | nil => rfl
  | cons c part ih => exact ih

/-- What stands where no part begins stays. -/
theorem replaced_cons {c : α} {rest : List α} (h : length (c :: rest) = 0) :
    replaced length replacement (c :: rest) = c :: replaced length replacement rest := by
  rw [replaced, replacedBehind, h]
  rfl

theorem replaced_append {front rest : List α} (h : ∀ c ∈ front, ∀ cs, length (c :: cs) = 0) :
    replaced length replacement (front ++ rest) = front ++ replaced length replacement rest := by
  induction front with
  | nil => rfl
  | cons c front ih =>
      rw [List.cons_append, replaced_cons (h c List.mem_cons_self _),
        ih fun d hd => h d (List.mem_cons_of_mem c hd), List.cons_append]

/-- A part that is found is replaced as a whole. -/
theorem replaced_part {part rest : List α} (hne : part ≠ [])
    (h : length (part ++ rest) = part.length) :
    replaced length replacement (part ++ rest) =
      replacement ++ replaced length replacement rest := by
  obtain ⟨c, part, rfl⟩ := List.exists_cons_of_ne_nil hne
  rw [List.cons_append, List.length_cons] at h
  rw [List.cons_append, replaced, replacedBehind, h]
  exact congrArg (replacement ++ ·) (replacedBehind_append part rest)

/-- What belongs to no part cuts a text into two that are treated one by one. -/
theorem replaced_append_cons {x : α} {rest : List α} (hle : ∀ cs, length cs ≤ cs.length)
    (hcut : ∀ front, length (front ++ x :: rest) = length front) (front : List α) :
    replaced length replacement (front ++ x :: rest) =
      replaced length replacement front ++ x :: replaced length replacement rest := by
  have hbehind : ∀ passed ≤ front.length,
      replacedBehind length replacement passed (front ++ x :: rest) =
        replacedBehind length replacement passed front ++
          x :: replaced length replacement rest := by
    induction front with
    | nil =>
        intro passed hpassed
        obtain rfl := Nat.le_zero.mp hpassed
        have hzero : length (x :: rest) = 0 :=
          (hcut []).trans (Nat.le_zero.mp (hle []))
        exact replaced_cons hzero
    | cons c front ih =>
        intro passed hpassed
        cases passed with
        | succ passed => exact ih passed (Nat.le_of_succ_le_succ hpassed)
        | zero =>
            have hsame : length (c :: (front ++ x :: rest)) = length (c :: front) :=
              hcut (c :: front)
            have hmore := hle (c :: front)
            rw [List.cons_append, replacedBehind, replacedBehind, hsame]
            cases hlength : length (c :: front) with
            | zero => exact congrArg (c :: ·) (ih 0 (Nat.zero_le _))
            | succ more =>
                rw [hlength] at hmore
                simp only [ih more (Nat.le_of_succ_le_succ hmore), List.append_assoc]
  exact hbehind 0 (Nat.zero_le _)

end TaskFarm.Text
