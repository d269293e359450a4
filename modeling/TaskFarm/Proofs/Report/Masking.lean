import TaskFarm.Report.Failure
import TaskFarm.Proofs.Text.Replacing
import TaskFarm.Proofs.Wire.Identifier

/-!
# Masked identifiers

A report is masked when each identifier in it is replaced by the same word, whichever digits it is
written with.  Reports that differ in the name of a task alone are masked to the same text.
-/

namespace TaskFarm.Report

open TaskFarm.Wire

/-- A character, with all hexadecimal digits taken for the same one. -/
def digitBlind (c : Char) : Char :=
  if (Json.hexDigit? c).isSome then '0' else c

/-- What all identifiers look like if digits are taken for the same one. -/
def identifierShape : List Char :=
  "00000000-0000-0000-0000-000000000000".toList

/-- The number of characters of the identifier at the front of a text, which is zero if there is
none. -/
def identifierLength (cs : List Char) : Nat :=
  if (cs.take 36).map digitBlind = identifierShape then 36 else 0

/-- A text with each of its identifiers masked. -/
def masked (cs : List Char) : List Char :=
  Text.replaced identifierLength "<uuid>".toList cs

theorem length_identifierShape : identifierShape.length = 36 := by
  decide

theorem identifierLength_le (cs : List Char) : identifierLength cs ≤ cs.length := by
  unfold identifierLength
  split
  · next hshape =>
    have hlength := congrArg List.length hshape
    rw [List.length_map, List.length_take, length_identifierShape] at hlength
    omega
  · exact Nat.zero_le _

/-- No identifier goes beyond a character that identifiers do not have. -/
theorem identifierLength_append {x : Char} (h : digitBlind x ∉ identifierShape)
    (front rest : List Char) :
    identifierLength (front ++ x :: rest) = identifierLength front := by
  by_cases hlong : 36 ≤ front.length
  · rw [identifierLength, identifierLength, List.take_append_of_le_length hlong]
  · have hwhole : ((front ++ x :: rest).take 36).map digitBlind ≠ identifierShape := by
      intro hshape
      obtain ⟨more, hmore⟩ := Nat.exists_eq_add_of_lt (Nat.lt_of_not_le hlong)
      have hmem : x ∈ (front ++ x :: rest).take 36 := by
        rw [hmore, Nat.add_assoc, List.take_length_add_append, List.take_succ_cons]
        simp
      exact h (hshape ▸ List.mem_map_of_mem hmem)
    have hfront : (front.take 36).map digitBlind ≠ identifierShape := by
      intro hshape
      have hlength := congrArg List.length hshape
      rw [List.length_map, List.length_take, length_identifierShape] at hlength
      omega
    rw [identifierLength, identifierLength, if_neg hwhole, if_neg hfront]

theorem masked_append_cons {x : Char} (h : digitBlind x ∉ identifierShape)
    (front rest : List Char) : masked (front ++ x :: rest) = masked front ++ x :: masked rest :=
  Text.replaced_append_cons identifierLength_le (fun front => identifierLength_append h front rest)
    front

/-! ## Written identifiers are masked -/

theorem digitBlind_digitChar {d : Nat} (h : d < 16) : digitBlind (Nat.digitChar d) = '0' := by
  rw [digitBlind, hexDigit?_digitChar h]
  rfl

theorem map_digitBlind_joined {a b c d e : List Char} :
    (joined a b c d e).map digitBlind = joined (a.map digitBlind) (b.map digitBlind)
      (c.map digitBlind) (d.map digitBlind) (e.map digitBlind) := by
  have hhyphen : digitBlind '-' = '-' := by decide
  simp [joined, hhyphen]

theorem map_digitBlind_uuidText (n : Nat) :
    (uuidText n).toList.map digitBlind = identifierShape := by
  obtain ⟨a, b, c, d, e, htext, hdigits, ha, hb, hc, hd, he⟩ := toList_uuidText n
  have hgroups : [a, b, c, d, e].flatten = hexDigits 32 n := by
    rw [← hdigits]
    simp
  have hblind : ∀ group ∈ [a, b, c, d, e],
      group.map digitBlind = List.replicate group.length '0' := by
    intro group hgroup
    refine List.map_eq_replicate_iff.mpr fun x hx => ?_
    obtain ⟨digit, hlt, rfl⟩ := mem_hexDigits (hgroups ▸ List.mem_flatten_of_mem hgroup hx)
    exact digitBlind_digitChar hlt
  rw [htext, map_digitBlind_joined, hblind a (by simp), hblind b (by simp), hblind c (by simp),
    hblind d (by simp), hblind e (by simp), ha, hb, hc, hd, he]
  decide

/-- Behind a space, any identifier becomes the same word. -/
theorem masked_uuidText (front : List Char) (n : Nat) (rest : List Char) :
    masked (front ++ ' ' :: ((uuidText n).toList ++ rest)) =
      masked front ++ ' ' :: ("<uuid>".toList ++ masked rest) := by
  have hshape := map_digitBlind_uuidText n
  have hlength : (uuidText n).toList.length = 36 := by
    rw [← length_identifierShape, ← hshape, List.length_map]
  have hfound : identifierLength ((uuidText n).toList ++ rest) = (uuidText n).toList.length := by
    rw [identifierLength, ← hlength, List.take_left, if_pos hshape]
  have hne : (uuidText n).toList ≠ [] := List.ne_nil_of_length_pos (by omega)
  rw [masked_append_cons (by decide)]
  exact congrArg (fun rest => masked front ++ ' ' :: rest) (Text.replaced_part hne hfound)

/-! ## Reports -/

/-- The name of the task that failed does not show in a masked report. -/
theorem masked_render_task (colour : Bool) (source : String) (id id' : TaskId)
    (cause : TaskError) :
    masked (render colour source (.evaluation (.task id cause))).toList =
      masked (render colour source (.evaluation (.task id' cause))).toList := by
  have hreport : ∀ id : TaskId, (render colour source (.evaluation (.task id cause))).toList =
      "Evaluation error: task".toList ++ ' ' :: ((uuidText id.number).toList ++
        (" failed: " ++ cause.message ++ "\n").toList) := by
    intro id
    change (paint colour [bare ("Evaluation error: " ++ ("task " ++ uuidText id.number ++
      " failed: " ++ cause.message)), newline]).toList = _
    cases colour <;> simp [paint, bare, newline, Piece.coloured, Ink.code?]
  rw [hreport id, hreport id', masked_uuidText, masked_uuidText]

theorem exists_ofFailure (source : String) (failure : FarmError) :
    ∃ d, ofFailure source failure = d ++ [newline] := by
  cases failure with
  | compilation diagnostic cause =>
      have hheading : ∃ d, heading diagnostic = d ++ [newline] := ⟨[_, _], rfl⟩
      change ∃ d, ofDiagnostic source.toList diagnostic = d ++ [newline]
      unfold ofDiagnostic
      split
      · exact hheading
      · split
        · exact hheading
        · exact ⟨_, (List.append_assoc _ [_] [newline]).symm⟩
  | evaluation cause => exact ⟨[_], rfl⟩
  | ledger cause => exact ⟨[_], rfl⟩

/-- A report is masked on its own, whatever comes behind it. -/
theorem masked_render_append (colour : Bool) (source : String) (failure : FarmError)
    (rest : List Char) :
    masked ((render colour source failure).toList ++ rest) =
      masked (render colour source failure).toList ++ masked rest := by
  obtain ⟨d, hd⟩ := exists_ofFailure source failure
  obtain ⟨front, hfront⟩ : ∃ front, (render colour source failure).toList = front ++ ['\n'] := by
    refine ⟨(paint colour d).toList, ?_⟩
    cases colour <;> simp [render, paint, hd, newline, Piece.coloured, Ink.code?]
  have hend : digitBlind '\n' ∉ identifierShape := by decide
  rw [hfront, List.append_assoc, List.singleton_append, masked_append_cons hend,
    masked_append_cons hend]
  simp [masked]

end TaskFarm.Report
