import TaskFarm.Proofs.Decimal.Finite
import TaskFarm.Proofs.Wire.Identifier
import TaskFarm.Proofs.Wire.Reader

/-!
# Encoding and decoding

What is encoded is decoded again, up to what JSON cannot say: a double that is not finite, and the
number of a record, which is not written.  The fields of an encoded structure have names of their
own, so that each decoder finds what its encoder wrote.  And whatever was decoded, from other
spellings or with other fields around it, has an encoding of its own that says the same.
-/

namespace TaskFarm.Wire.Json

/-! ## Fields -/

section Fields

variable {α : Type} {fields front : List (String × Json)} {name other : String} {j : Json}

theorem mem_of_field? (h : field? fields name = some j) : (name, j) ∈ fields := by
  obtain ⟨entry, hentry, rfl⟩ := Option.map_eq_some_iff.mp h
  have hname : entry.1 = name := by simpa using List.find?_some hentry
  rw [← hname]
  exact List.mem_reverse.mp (List.mem_of_find?_eq_some hentry)

/-- A field that is left out or has another name does not hide the fields before it. -/
theorem field?_append_unlessEmpty (h : other ≠ name) (value : Option Json) :
    field? (front ++ unlessEmpty other value) name = field? front name := by
  cases value with
  | none => rw [unlessEmpty, List.append_nil]
  | some j => simp [unlessEmpty, field?, h]

theorem field?_unlessEmpty (h : field? front name = none) (value : Option Json) :
    field? (front ++ unlessEmpty name value) name = value := by
  cases value with
  | none => rw [unlessEmpty, List.append_nil, h]
  | some j => simp [unlessEmpty, field?]

/-- An optional field is read back as far as its value is not written as null. -/
theorem optional?_unlessEmpty {decode : Json → Option α} (encode : α → Json) (keep : α → Bool)
    (hkeep : ∀ x, keep x = true → encode x ≠ .null ∧ decode (encode x) = some x)
    (hdrop : ∀ x, keep x = false → encode x = .null) (h : field? front name = none)
    (value : Option α) :
    optional? decode (front ++ unlessEmpty name (value.map encode)) name =
      some (value.filter keep) := by
  rw [optional?, field?_unlessEmpty h]
  cases value with
  | none => rfl
  | some x =>
      cases hx : keep x with
      | false => simp [hdrop x hx, Option.filter_some, hx]
      | true =>
          obtain ⟨hnull, hdecode⟩ := hkeep x hx
          rw [Option.filter_some_pos hx, Option.map_some]
          split
          · next hnone => cases hnone
          · next hnone => exact absurd (Option.some.inj hnone) hnull
          · next j _ hj =>
            obtain rfl := Option.some.inj hj
            rw [hdecode, Option.map_some]

/-- A required field is read back if its decoder reads what is written in it. -/
theorem required?_append_unlessEmpty {decode : Json → Option α} {x : α} (h : other ≠ name)
    (hj : field? front name = some j) (hx : decode j = some x) (value : Option Json) :
    required? decode (front ++ unlessEmpty other value) name = some x := by
  rw [required?, field?_append_unlessEmpty h, hj, Option.bind_some, hx]

/-- The fields of a value that can be stored can be stored. -/
theorem Storable.of_toFields? {names : List String} (h : j.Storable)
    (hfields : j.toFields? names = some fields) : ∀ entry ∈ fields, entry.2.Storable := by
  cases h with
  | object hentries =>
      cases hfields
      exact hentries
  | array hitems =>
      simp only [toFields?, Option.ite_none_right_eq_some, Option.some.injEq] at hfields
      obtain ⟨-, rfl⟩ := hfields
      exact fun entry hentry => hitems _ (List.of_mem_zip hentry).2
  | _ => cases hfields

/-- A number that can be stored stands for a finite double. -/
theorem Storable.isFinite {x : Float} (h : j.Storable) (hx : toFloat? j = some x) :
    x.isFinite = true := by
  cases h with
  | natural hn =>
      cases hx
      exact Decimal.isFinite_nearest hn
  | negative _ hn =>
      cases hx
      exact Decimal.isFinite_neg (Decimal.isFinite_nearest (hn.trans_lt (by decide)))
  | float hfinite =>
      cases hx
      exact hfinite
  | _ => cases hx

theorem isFinite_of_required? {x : Float} (hfields : ∀ entry ∈ fields, entry.2.Storable)
    (h : required? toFloat? fields name = some x) : x.isFinite = true := by
  obtain ⟨j, hj, hx⟩ := Option.bind_eq_some_iff.mp h
  exact (hfields _ (mem_of_field? hj)).isFinite hx

theorem isFinite_of_optional? {x : Float} (hfields : ∀ entry ∈ fields, entry.2.Storable)
    (h : optional? toFloat? fields name = some (some x)) : x.isFinite = true := by
  unfold optional? at h
  split at h
  · cases h
  · cases h
  · next j hj =>
    obtain ⟨y, hy, hsome⟩ := Option.map_eq_some_iff.mp h
    cases hsome
    exact (hfields _ (mem_of_field? hj)).isFinite hy

theorem lt_of_required? {n : Nat} (h : required? toUuid? fields name = some n) :
    n < 2 ^ 128 := by
  obtain ⟨j, -, hn⟩ := Option.bind_eq_some_iff.mp h
  unfold toUuid? at hn
  split at hn
  · exact uuid?_lt hn
  · cases hn

end Fields

/-! ## What is encoded is decoded -/

theorem toUuid?_text {n : Nat} (h : n < 2 ^ 128) : toUuid? (.string (uuidText n)) = some n := by
  rw [toUuid?, uuid?_uuidText h]

theorem toText?_string (text : String) : toText? (.string text) = some text := rfl

theorem toNatural?_natural (n : Nat) : toNatural? (.natural n) = some n := rfl

theorem toFloat?_ofFloat {x : Float} (h : x.isFinite = true) : toFloat? (ofFloat x) = some x := by
  rw [ofFloat, if_pos h]
  rfl

theorem toStatus?_ofStatus (s : Status) : toStatus? (ofStatus s) = some s := by
  cases s <;> rfl

theorem toTaskError?_ofTaskError (e : TaskError) : toTaskError? (ofTaskError e) = some e := by
  cases e <;> rfl

/-- An error is never written as null, so that every error is read back. -/
theorem optional?_error {front : List (String × Json)} (h : field? front "error" = none)
    (error : Option TaskError) :
    optional? toTaskError? (front ++ unlessEmpty "error" (error.map ofTaskError)) "error" =
      some error := by
  have hall : error.filter (fun _ => true) = error := by cases error <;> rfl
  have hkeep : ∀ e, ofTaskError e ≠ .null ∧ toTaskError? (ofTaskError e) = some e := by
    intro e
    refine ⟨?_, toTaskError?_ofTaskError e⟩
    cases e <;> simp [ofTaskError]
  have herror := optional?_unlessEmpty ofTaskError (fun _ => true) (fun e _ => hkeep e) (by simp) h
    error
  rwa [hall] at herror

theorem toTask?_eq_some_iff {j : Json} {t : Task} :
    toTask? j = some t ↔ ∃ fields,
      j.toFields? ["id", "arg1", "arg2", "operation", "operation_time", "error"] = some fields ∧
      required? toUuid? fields "id" = some t.id.number ∧
      required? toFloat? fields "arg1" = some t.arg1 ∧
      required? toFloat? fields "arg2" = some t.arg2 ∧
      required? toText? fields "operation" = some t.operation ∧
      required? toNatural? fields "operation_time" = some t.duration ∧
      optional? toTaskError? fields "error" = some t.error := by
  simp only [toTask?, Option.bind_eq_bind, Option.bind_eq_some_iff, Option.pure_def,
    Option.some.injEq]
  constructor
  · rintro ⟨fields, hfields, id, hid, arg1, harg1, arg2, harg2, operation, hoperation, duration,
      hduration, error, herror, rfl⟩
    exact ⟨fields, hfields, hid, harg1, harg2, hoperation, hduration, herror⟩
  · rintro ⟨fields, hfields, hid, harg1, harg2, hoperation, hduration, herror⟩
    exact ⟨fields, hfields, _, hid, _, harg1, _, harg2, _, hoperation, _, hduration, _, herror, rfl⟩

/-- A task with finite operands is read back. -/
theorem toTask?_ofTask {t : Task} (hid : t.id.number < 2 ^ 128) (harg1 : t.arg1.isFinite = true)
    (harg2 : t.arg2.isFinite = true) : toTask? (ofTask t) = some t := by
  refine toTask?_eq_some_iff.mpr ⟨_, rfl, ?_, ?_, ?_, ?_, ?_, optional?_error rfl t.error⟩
  · exact required?_append_unlessEmpty (by decide) rfl (toUuid?_text hid) _
  · exact required?_append_unlessEmpty (by decide) rfl (toFloat?_ofFloat harg1) _
  · exact required?_append_unlessEmpty (by decide) rfl (toFloat?_ofFloat harg2) _
  · exact required?_append_unlessEmpty (by decide) rfl (toText?_string t.operation) _
  · exact required?_append_unlessEmpty (by decide) rfl (toNatural?_natural t.duration) _

theorem toResult?_eq_some_iff {j : Json} {r : TaskResult} :
    toResult? j = some r ↔ ∃ fields,
      j.toFields? ["task_id", "result", "error"] = some fields ∧
      required? toUuid? fields "task_id" = some r.id.number ∧
      required? toFloat? fields "result" = some r.value ∧
      optional? toTaskError? fields "error" = some r.error := by
  simp only [toResult?, Option.bind_eq_bind, Option.bind_eq_some_iff, Option.pure_def,
    Option.some.injEq]
  constructor
  · rintro ⟨fields, hfields, id, hid, value, hvalue, error, herror, rfl⟩
    exact ⟨fields, hfields, hid, hvalue, herror⟩
  · rintro ⟨fields, hfields, hid, hvalue, herror⟩
    exact ⟨fields, hfields, _, hid, _, hvalue, _, herror, rfl⟩

/-- A result with a finite value is read back. -/
theorem toResult?_ofResult {r : TaskResult} (hid : r.id.number < 2 ^ 128)
    (hvalue : r.value.isFinite = true) : toResult? (ofResult r) = some r := by
  refine toResult?_eq_some_iff.mpr ⟨_, rfl, ?_, ?_, optional?_error rfl r.error⟩
  · exact required?_append_unlessEmpty (by decide) rfl (toUuid?_text hid) _
  · exact required?_append_unlessEmpty (by decide) rfl (toFloat?_ofFloat hvalue) _

theorem toRecord?_eq_some_iff {j : Json} {r : Record} :
    toRecord? j = some r ↔ ∃ fields,
      j.toFields? ["id", "expression", "status", "result"] = some fields ∧
      required? toUuid? fields "id" = some r.id.number ∧
      required? toText? fields "expression" = some r.expression ∧
      required? toStatus? fields "status" = some r.status ∧
      optional? toFloat? fields "result" = some r.result ∧ r.seq = 0 := by
  simp only [toRecord?, Option.bind_eq_bind, Option.bind_eq_some_iff, Option.pure_def,
    Option.some.injEq]
  constructor
  · rintro ⟨fields, hfields, id, hid, expression, hexpression, status, hstatus, result, hresult,
      rfl⟩
    exact ⟨fields, hfields, hid, hexpression, hstatus, hresult, rfl⟩
  · rintro ⟨fields, hfields, hid, hexpression, hstatus, hresult, hseq⟩
    exact ⟨fields, hfields, _, hid, _, hexpression, _, hstatus, _, hresult, by rw [← hseq]⟩

/-- A record is read back without its number and without a result that is not finite. -/
theorem toRecord?_ofRecord {r : Record} (hid : r.id.number < 2 ^ 128) :
    toRecord? (ofRecord r) =
      some { r with seq := 0, result := r.result.filter Float.isFinite } := by
  refine toRecord?_eq_some_iff.mpr ⟨_, rfl, ?_, ?_, ?_, ?_, rfl⟩
  · exact required?_append_unlessEmpty (by decide) rfl (toUuid?_text hid) _
  · exact required?_append_unlessEmpty (by decide) rfl (toText?_string r.expression) _
  · exact required?_append_unlessEmpty (by decide) rfl (toStatus?_ofStatus r.status) _
  · refine optional?_unlessEmpty ofFloat Float.isFinite (fun x hx => ⟨?_, toFloat?_ofFloat hx⟩)
      (fun x hx => ?_) rfl r.result
    · simp [ofFloat, hx]
    · simp [ofFloat, hx]

/-- A result that is not finite is written as null. -/
theorem get?_result_ofRecord {r : Record} {x : Float} (hresult : r.result = some x)
    (hx : x.isFinite = false) : (ofRecord r).get? "result" = some .null := by
  rw [ofRecord, get?, field?_unlessEmpty rfl, hresult, Option.map_some, ofFloat, hx]
  rfl

/-! ## What was decoded has an encoding -/

theorem toTask?_stable {j : Json} {t : Task} (hj : j.Storable) (h : toTask? j = some t) :
    toTask? (ofTask t) = some t := by
  obtain ⟨fields, hfields, hid, harg1, harg2, -⟩ := toTask?_eq_some_iff.mp h
  have hstorable := hj.of_toFields? hfields
  exact toTask?_ofTask (lt_of_required? hid) (isFinite_of_required? hstorable harg1)
    (isFinite_of_required? hstorable harg2)

theorem toResult?_stable {j : Json} {r : TaskResult} (hj : j.Storable)
    (h : toResult? j = some r) : toResult? (ofResult r) = some r := by
  obtain ⟨fields, hfields, hid, hvalue, -⟩ := toResult?_eq_some_iff.mp h
  exact toResult?_ofResult (lt_of_required? hid)
    (isFinite_of_required? (hj.of_toFields? hfields) hvalue)

theorem toRecord?_stable {j : Json} {r : Record} (hj : j.Storable) (h : toRecord? j = some r) :
    toRecord? (ofRecord r) = some r := by
  obtain ⟨fields, hfields, hid, -, -, hresult, hseq⟩ := toRecord?_eq_some_iff.mp h
  have hkept : r.result.filter Float.isFinite = r.result := by
    cases hvalue : r.result with
    | none => rfl
    | some x =>
        rw [hvalue] at hresult
        exact Option.filter_some_pos (isFinite_of_optional? (hj.of_toFields? hfields) hresult)
  rw [toRecord?_ofRecord (lt_of_required? hid), hkept, ← hseq]

/-- Tasks, results and records are read back from their JSON, a record without its number and
without a result that is not finite, for which null is written.  Whatever value is read from JSON
that can be stored, as all JSON can be that a text spells, is read back as well. -/
theorem roundTrip :
    (∀ t : Task, t.id.number < 2 ^ 128 → t.arg1.isFinite = true → t.arg2.isFinite = true →
      toTask? (ofTask t) = some t) ∧
    (∀ r : TaskResult, r.id.number < 2 ^ 128 → r.value.isFinite = true →
      toResult? (ofResult r) = some r) ∧
    (∀ r : Record, r.id.number < 2 ^ 128 →
      toRecord? (ofRecord r) = some { r with seq := 0, result := r.result.filter Float.isFinite } ∧
      ∀ x, r.result = some x → x.isFinite = false → (ofRecord r).get? "result" = some .null) ∧
    (∀ text j, parse? text = some j → j.Storable) ∧
    ∀ j : Json, j.Storable →
      (∀ t, toTask? j = some t → toTask? (ofTask t) = some t) ∧
      (∀ r, toResult? j = some r → toResult? (ofResult r) = some r) ∧
      ∀ r, toRecord? j = some r → toRecord? (ofRecord r) = some r := by
  refine ⟨fun t => toTask?_ofTask, fun r => toResult?_ofResult, fun r hid => ?_,
    fun text j => storable_of_parse?, fun j hj => ?_⟩
  · exact ⟨toRecord?_ofRecord hid, fun x => get?_result_ofRecord⟩
  · exact ⟨fun t => toTask?_stable hj, fun r => toResult?_stable hj, fun r => toRecord?_stable hj⟩

/-- An identifier without hyphens, an integer for an operand, an error that is null and a field that
no task has: the task is read, and its own JSON says the same. -/
theorem roundTrip_respelled :
    let fields : List (String × Json) := [("id", .string "000000000000000000000000000000FF"),
      ("arg1", .natural 6), ("arg2", .float 0.5), ("operation", .string "?"),
      ("operation_time", .natural 0), ("error", .null), ("note", .array [])]
    let t : Task := ⟨⟨255⟩, Decimal.Scientific.nearest ⟨6, 0⟩, 0.5, "?", 0, none⟩
    toTask? (.object fields) = some t ∧ toTask? (ofTask t) = some t := by
  intro fields t
  have hvalue : toUuid? (.string "000000000000000000000000000000FF") = some 255 := by
    decide +kernel
  have hid : required? toUuid? fields "id" = some 255 := by
    have hfield : field? fields "id" = some (.string "000000000000000000000000000000FF") := rfl
    rw [required?, hfield, Option.bind_some, hvalue]
  have hread : toTask? (.object fields) = some t :=
    toTask?_eq_some_iff.mpr ⟨fields, rfl, hid, rfl, rfl, rfl, rfl, rfl⟩
  have hstorable : Storable (.object fields) := by
    refine .object ?_
    simp only [fields, List.forall_mem_cons]
    exact ⟨.string _, .natural (by decide), .float rfl, .string _, .natural (by decide), .null,
      .array (by simp), by simp⟩
  exact ⟨hread, (roundTrip.2.2.2.2 _ hstorable).1 t hread⟩

end TaskFarm.Wire.Json
