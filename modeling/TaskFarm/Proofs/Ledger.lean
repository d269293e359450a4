import TaskFarm.Ledger
import Mathlib.Data.List.Nodup
import Mathlib.Tactic.Common

/-!
# What a ledger says of an expression

Creating a record and ending it are described by what the look-up of records finds afterwards.
-/

namespace TaskFarm.Ledger

variable {l l' : Ledger} {r : Record} {id : ExpressionId}

theorem id_of_get? (h : l.get? id = some r) : r.id = id := by
  simpa using List.find?_some h

/-- A record is created only for an expression without one, and the others stay as they are. -/
theorem create_ok (h : l.create r = .ok l') :
    l.get? r.id = none ∧ l'.get? r.id = some { r with seq := l.records.length } ∧
      ∀ id, id ≠ r.id → l'.get? id = l.get? id := by
  unfold create at h
  split at h
  · cases h
  · next hnone =>
    cases h
    refine ⟨hnone, ?_, ?_⟩
    · have hfind : l.records.find? (fun old => old.id == r.id) = none := hnone
      simp [get?, List.find?_append, hfind]
    · intro id hne
      simp [get?, List.find?_append, hne.symm]

theorem get?_replace (l : Ledger) (record : Record) (id : ExpressionId) :
    (l.replace record).get? id =
      if id = record.id then (l.get? id).map fun _ => record else l.get? id := by
  have hkeys : ((fun r : Record => r.id == id) ∘ fun r : Record =>
      if r.id == record.id then record else r) = fun r => r.id == id := by
    funext r
    by_cases he : r.id = record.id
    · simp [he]
    · simp [he]
  simp only [get?, replace, List.find?_map, hkeys]
  cases hfind : l.records.find? (fun r => r.id == id) with
  | none => simp
  | some r =>
      have hid : r.id = id := by simpa using List.find?_some hfind
      by_cases he : id = record.id
      · simp [hid, he]
      · simp [hid, he]

/-- An expression that is processing can be ended, and the others stay as they are. -/
theorem finish_processing (hget : l.get? id = some r) (hprocessing : r.status = .processing)
    (ending : Ending) :
    ∃ l', l.finish id ending = .ok (r.finish ending, l') ∧
      l'.get? id = some (r.finish ending) ∧ ∀ id', id' ≠ id → l'.get? id' = l.get? id' := by
  have hid : (r.finish ending).id = id := by
    rw [← id_of_get? hget]
    cases ending <;> rfl
  refine ⟨l.replace (r.finish ending), ?_, ?_, ?_⟩
  · simp [finish, hget, hprocessing, Status.isTerminal]
  · simp [get?_replace, hid, hget]
  · intro id' hne
    rw [get?_replace, hid, if_neg hne]

/-! ## The records as a list -/

theorem get?_eq_none : l.get? id = none ↔ id ∉ l.records.map Record.id := by
  simp only [get?, List.find?_eq_none, beq_iff_eq, List.mem_map, not_exists, not_and]

theorem mem_of_get? (h : l.get? id = some r) : r ∈ l.records :=
  List.mem_of_find?_eq_some h

theorem create_fresh (h : l.get? r.id = none) :
    l.create r = .ok ⟨l.records ++ [{ r with seq := l.records.length }]⟩ := by
  simp [create, h]

theorem create_eq (h : l.create r = .ok l') :
    l'.records = l.records ++ [{ r with seq := l.records.length }] := by
  rw [create_fresh (create_ok h).1] at h
  exact (congrArg records (Except.ok.inj h)).symm

/-- Only an expression that is processing can be ended. -/
theorem finish_ok {ending : Ending} {record : Record} (h : l.finish id ending = .ok (record, l')) :
    ∃ r, l.get? id = some r ∧ r.status = .processing ∧ record = r.finish ending ∧
      l' = l.replace record := by
  unfold finish at h
  split at h
  · cases h
  · next r hget =>
    split at h
    · cases h
    · next hterminal =>
      obtain ⟨rfl, rfl⟩ := Prod.mk.inj (Except.ok.inj h)
      refine ⟨r, hget, ?_, rfl, rfl⟩
      simpa [Status.isTerminal] using hterminal

theorem finish_id (r : Record) (ending : Ending) : (r.finish ending).id = r.id := by
  cases ending <;> rfl

theorem finish_expression (r : Record) (ending : Ending) :
    (r.finish ending).expression = r.expression := by
  cases ending <;> rfl

theorem finish_status_ne (r : Record) (ending : Ending) :
    (r.finish ending).status ≠ .processing := by
  cases ending <;> nofun

theorem finish_seq (r : Record) (ending : Ending) : (r.finish ending).seq = r.seq := by
  cases ending <;> rfl

/-- What the ending of a record does not touch stays as it is in all records. -/
theorem map_finish {α : Type} {f : Record → α} (hf : ∀ r ending, f (Record.finish r ending) = f r)
    {ending : Ending} {record : Record} (honce : (l.records.map Record.id).Nodup)
    (h : l.finish id ending = .ok (record, l')) : l'.records.map f = l.records.map f := by
  obtain ⟨r, hget, -, rfl, rfl⟩ := finish_ok h
  rw [replace, List.map_map]
  refine List.map_congr_left fun q hq => ?_
  by_cases he : q.id = (r.finish ending).id
  · have hsame : q = r :=
      List.inj_on_of_nodup_map honce hq (mem_of_get? hget) (he.trans (finish_id r ending))
    subst hsame
    simp [finish_id, hf]
  · simp [he]

/-- Ending an expression leaves every id and every source in its place. -/
theorem finish_sources {ending : Ending} {record : Record}
    (honce : (l.records.map Record.id).Nodup) (h : l.finish id ending = .ok (record, l')) :
    l'.records.map (fun r => (r.id, r.expression)) =
      l.records.map fun r => (r.id, r.expression) :=
  map_finish (fun r ending => by rw [finish_id, finish_expression]) honce h

end TaskFarm.Ledger
