import TaskFarm.Proofs.Store.Refinement

/-!
# What a conversation leaves in the store

The records of a store can be read off what was said: those that were created, numbered in the order
of their creation, and each ended as the one successful request to end it asked for.  What is proved
of the ledger here holds of the store, which refines it.
-/

namespace TaskFarm

/-! ## Reading what was said -/

/-- The record that was created by a request, before it got its number. -/
def created? : Request × Answer → Option Record
  | (.create r, .created) => some r
  | _ => none

/-- How an expression was ended by a request. -/
def ended? (id : ExpressionId) : Request × Answer → Option Ending
  | (.finish other ending, .finished _) => if other = id then some ending else none
  | _ => none

/-- All records that were created, in order. -/
def createdIn (said : List (Request × Answer)) : List Record :=
  said.filterMap created?

/-- How an expression was ended, if it was. -/
def endingIn? (said : List (Request × Answer)) (id : ExpressionId) : Option Ending :=
  said.findSome? (ended? id)

/-- The record as it is with the given ending, if any. -/
def Record.endedBy (r : Record) : Option Ending → Record
  | none => r
  | some ending => r.finish ending

/-- The records that a conversation leaves: all that were created, numbered by their places and
ended. -/
def recordsIn (said : List (Request × Answer)) : List Record :=
  (createdIn said).zipIdx.map fun (r, i) => { r with seq := i }.endedBy (endingIn? said r.id)

theorem Record.endedBy_id (r : Record) (ending : Option Ending) : (r.endedBy ending).id = r.id := by
  cases ending with
  | none => rfl
  | some ending => exact Ledger.finish_id r ending

theorem createdIn_append (said : List (Request × Answer)) (last : Request × Answer) :
    createdIn (said ++ [last]) = createdIn said ++ (created? last).toList := by
  cases h : created? last <;> simp [createdIn, h]

theorem mem_requests_of_mem_createdIn {said : List (Request × Answer)} {r : Record}
    (h : r ∈ createdIn said) : .create r ∈ said.map Prod.fst := by
  obtain ⟨entry, hentry, hcreated⟩ := List.mem_filterMap.mp h
  have hrequest : entry.1 = .create r := by
    unfold created? at hcreated
    split at hcreated
    · exact congrArg Request.create (Option.some.inj hcreated)
    · cases hcreated
  exact hrequest ▸ List.mem_map_of_mem hentry

theorem endingIn?_append (said : List (Request × Answer)) (last : Request × Answer)
    (id : ExpressionId) :
    endingIn? (said ++ [last]) id = (endingIn? said id).or (ended? id last) := by
  cases h : ended? id last <;> simp [endingIn?, List.findSome?_append, h]

theorem recordsIn_ids (said : List (Request × Answer)) :
    (recordsIn said).map Record.id = (createdIn said).map Record.id := by
  have hkeep : Record.id ∘ (fun p : Record × Nat =>
      { p.1 with seq := p.2 }.endedBy (endingIn? said p.1.id)) = Record.id ∘ Prod.fst :=
    funext fun p => Record.endedBy_id _ _
  rw [recordsIn, List.map_map, hkeep, ← List.map_map, List.zipIdx_map_fst]

/-- A record that was handed in as processing has a value just if it is done. -/
theorem Record.result_endedBy {r : Record} (hstatus : r.status = .processing)
    (hresult : r.result = none) (ending : Option Ending) :
    (r.endedBy ending).result.isSome = true ↔ (r.endedBy ending).status = .done := by
  match ending with
  | none => simp [Record.endedBy, hstatus, hresult]
  | some (.done value) => simp [Record.endedBy, Record.finish]
  | some .failed => simp [Record.endedBy, Record.finish]

namespace Ledger

variable {l : Ledger} {said : List (Request × Answer)}

/-! ## The ledger after a conversation -/

/-- The ledger holds the records of what was said, and only expressions with a record were ended. -/
structure Told (l : Ledger) (said : List (Request × Answer)) : Prop where
  records_eq : l.records = recordsIn said
  ended : ∀ id, l.get? id = none → endingIn? said id = none

theorem told_empty : empty.Told [] :=
  ⟨rfl, fun _ _ => rfl⟩

/-- A request that neither created nor ended anything leaves all records as they were. -/
theorem Told.idle {q : Request} {answer : Answer} (h : l.Told said) (hcreated : answer ≠ .created)
    (hfinished : ∀ r, answer ≠ .finished r) : l.Told (said ++ [(q, answer)]) := by
  have hnone : created? (q, answer) = none := by
    unfold created?
    split
    · next heq => exact absurd (Prod.mk.inj heq).2 hcreated
    · rfl
  have hendings : ∀ id, endingIn? (said ++ [(q, answer)]) id = endingIn? said id := by
    intro id
    have hended : ended? id (q, answer) = none := by
      unfold ended?
      split
      · next heq => exact absurd (Prod.mk.inj heq).2 (hfinished _)
      · rfl
    rw [endingIn?_append, hended, Option.or_none]
  constructor
  · simp [recordsIn, createdIn_append, hnone, hendings, h.records_eq]
  · intro id hid
    rw [hendings]
    exact h.ended id hid

theorem Told.create {l' : Ledger} {r : Record} (h : l.Told said) (hl : l.create r = .ok l') :
    l'.Told (said ++ [(.create r, .created)]) := by
  have hendings : ∀ id, endingIn? (said ++ [(.create r, .created)]) id = endingIn? said id := by
    intro id
    exact (endingIn?_append _ _ id).trans (Option.or_none)
  obtain ⟨hfresh, hnew, hothers⟩ := create_ok hl
  constructor
  · have hlength : l.records.length = (createdIn said).length := by
      rw [h.records_eq, recordsIn, List.length_map, List.length_zipIdx]
    rw [create_eq hl, hlength, h.records_eq, recordsIn, recordsIn, createdIn_append, created?,
      Option.toList_some, List.zipIdx_append, List.map_append]
    simp [hendings, h.ended r.id hfresh, Record.endedBy]
  · intro id hid
    have hne : id ≠ r.id := by
      rintro rfl
      cases hnew.symm.trans hid
    rw [hendings]
    exact h.ended id ((hothers id hne).symm.trans hid)

/-- The record of an expression that was created. -/
theorem Told.get?_eq (h : l.Told said) (hnumbered : l.Numbered) {r : Record} {i : Nat}
    (hr : (r, i) ∈ (createdIn said).zipIdx) :
    l.get? r.id = some ({ r with seq := i }.endedBy (endingIn? said r.id)) := by
  have hmem : { r with seq := i }.endedBy (endingIn? said r.id) ∈ l.records := by
    rw [h.records_eq, recordsIn]
    exact List.mem_map_of_mem hr
  simpa [Record.endedBy_id] using hnumbered.mem_iff_get?.mp hmem

theorem Told.finish {l' : Ledger} {id : ExpressionId} {ending : Ending} {record : Record}
    (h : l.Told said) (hnumbered : l.Numbered) (hl : l.finish id ending = .ok (record, l')) :
    l'.Told (said ++ [(.finish id ending, .finished record)]) := by
  obtain ⟨r, hget, hprocessing, hrecord, rfl⟩ := finish_ok hl
  have hid : record.id = id := by rw [hrecord, finish_id, id_of_get? hget]
  have hendings : ∀ other, endingIn? (said ++ [(.finish id ending, .finished record)]) other =
      (endingIn? said other).or (if id = other then some ending else none) :=
    fun other => endingIn?_append said _ other
  have hcreated : createdIn (said ++ [(.finish id ending, .finished record)]) = createdIn said := by
    simp [createdIn_append, created?]
  constructor
  · rw [replace, h.records_eq, recordsIn, recordsIn, hcreated, List.map_map]
    refine List.map_congr_left fun entry hc => ?_
    obtain ⟨c, i⟩ := entry
    simp only [Function.comp_apply, Record.endedBy_id, hid, hendings, beq_iff_eq]
    by_cases he : c.id = id
    · -- the record of this expression is still processing, and so it was not ended before
      have hr : { c with seq := i }.endedBy (endingIn? said c.id) = r := by
        have hfound := h.get?_eq hnumbered hc
        rw [he, hget] at hfound
        rw [he]
        exact (Option.some.inj hfound).symm
      cases hbefore : endingIn? said c.id with
      | none =>
          rw [hbefore, Record.endedBy] at hr
          rw [if_pos he, if_pos he.symm, Option.none_or, Record.endedBy, hr, hrecord]
      | some earlier =>
          rw [hbefore, Record.endedBy] at hr
          exact absurd (hr ▸ hprocessing) (finish_status_ne _ earlier)
    · rw [if_neg he, if_neg (Ne.symm he), Option.or_none]
  · intro other hother
    have hne : id ≠ other := by
      rintro rfl
      rw [get?_replace, if_pos hid.symm, hget] at hother
      cases hother
    rw [get?_replace, hid, if_neg hne.symm] at hother
    rw [hendings, h.ended other hother, if_neg hne]
    rfl

theorem Told.answer (h : l.Told said) (hnumbered : l.Numbered) (q : Request) :
    (l.answer q).2.Told (said ++ [(q, (l.answer q).1)]) := by
  rcases l.answer_cases q with ⟨hl, hcreated, hfinished⟩ | ⟨r, l', rfl, hl, hanswer⟩ |
    ⟨id, ending, record, l', rfl, hl, hanswer⟩
  · rw [hl]
    exact h.idle hcreated hfinished
  · rw [hanswer]
    exact h.create hl
  · rw [hanswer]
    exact h.finish hnumbered hl

theorem Told.converse (h : l.Told said) (hnumbered : l.Numbered) (qs : List Request) :
    (l.converse qs).2.Told (said ++ (l.converse qs).1) := by
  induction qs generalizing l said with
  | nil => simpa [Ledger.converse] using h
  | cons q qs ih =>
      have hlast := ih (h.answer hnumbered q) (hnumbered.answer q)
      simpa [Ledger.converse] using hlast

theorem converse_requests (l : Ledger) (qs : List Request) :
    (l.converse qs).1.map Prod.fst = qs := by
  induction qs generalizing l with
  | nil => rfl
  | cons q qs ih => simp [converse, ih]

/-! ## Ended records -/

/-- Nothing that is asked changes a record that has ended. -/
theorem get?_answer {id : ExpressionId} {r : Record} (hget : l.get? id = some r)
    (hterminal : r.status.isTerminal = true) (q : Request) : (l.answer q).2.get? id = some r := by
  rcases l.answer_cases q with ⟨hl, -⟩ | ⟨new, l', -, hl, hanswer⟩ |
    ⟨other, ending, record, l', -, hl, hanswer⟩
  · rwa [hl]
  · obtain ⟨hfresh, -, hothers⟩ := create_ok hl
    have hne : id ≠ new.id := by
      rintro rfl
      cases hget.symm.trans hfresh
    rw [hanswer]
    exact (hothers id hne).trans hget
  · obtain ⟨old, hold, hprocessing, rfl, rfl⟩ := finish_ok hl
    have hne : id ≠ other := by
      rintro rfl
      cases hget.symm.trans hold
      rw [hprocessing] at hterminal
      cases hterminal
    have hid : (old.finish ending).id = other := by rw [finish_id, id_of_get? hold]
    rw [hanswer, get?_replace, hid, if_neg hne]
    exact hget

theorem get?_converse {id : ExpressionId} {r : Record} (hget : l.get? id = some r)
    (hterminal : r.status.isTerminal = true) (qs : List Request) :
    (l.converse qs).2.get? id = some r := by
  induction qs generalizing l with
  | nil => exact hget
  | cons q qs ih => exact ih (get?_answer hget hterminal q)

end Ledger

end TaskFarm
