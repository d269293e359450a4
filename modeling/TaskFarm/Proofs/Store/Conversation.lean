import TaskFarm.Proofs.Store.History

/-!
# Every conversation with a store

After any sequence of requests the store shows the list of the records that were created.  What it
then says to another request is said in terms of that list.
-/

namespace TaskFarm

/-- Ending a record changes its status and its result, and nothing else. -/
theorem Record.finish_eq (r : Record) (ending : Ending) :
    r.finish ending =
      { r with status := (r.finish ending).status, result := (r.finish ending).result } := by
  cases ending <;> rfl

namespace Store

variable {s : Store} {l : Ledger} {id : ExpressionId} {ending : Ending} {record : Record}

/-! ## Refusals -/

theorem create_error_iff {r : Record} {e : LedgerError} :
    (s.create r).1 = .error e ↔ e = .alreadyExists r.id ∧ s.get? r.id ≠ none := by
  cases hget : s.get? r.id with
  | none => simp [create, hget]
  | some old => simp [create, hget, @eq_comm _ e]

theorem finish_error_iff {e : LedgerError} :
    (s.finish id ending).1 = .error e ↔
      e = .notFound id ∧ s.get? id = none ∨
        e = .alreadyFinished id ∧ ∃ r, s.get? id = some r ∧ r.status.isTerminal = true := by
  cases hget : s.get? id with
  | none => simp [finish, hget, @eq_comm _ e]
  | some r =>
      by_cases hterminal : r.status.isTerminal = true
      · simp [finish, hget, hterminal, @eq_comm _ e]
      · simp [finish, hget, hterminal]

/-- A request to create that is refused leaves the store as it is. -/
theorem create_refused {r : Record} {e : LedgerError} (h : (s.create r).1 = .error e) :
    (s.create r).2 = s := by
  cases hget : s.get? r.id with
  | none => simp [create, hget] at h
  | some old => simp [create, hget]

/-- A request to end that is refused leaves the store as it is. -/
theorem finish_refused {e : LedgerError} (h : (s.finish id ending).1 = .error e) :
    (s.finish id ending).2 = s := by
  cases hget : s.get? id with
  | none => simp [finish, hget]
  | some r =>
      by_cases hterminal : r.status.isTerminal = true
      · simp [finish, hget, hterminal]
      · simp [finish, hget, hterminal] at h

/-! ## The list of a store -/

theorem Holds.get?_eq_some (h : s.Holds l) (hl : l.Numbered) {r : Record} :
    s.get? id = some r ↔ r ∈ s.list ∧ r.id = id := by
  rw [h.list_eq hl, hl.mem_iff_get?, h.get?_eq]
  constructor
  · intro hget
    have hid := Ledger.id_of_get? hget
    exact ⟨hid ▸ hget, hid⟩
  · rintro ⟨hget, rfl⟩
    exact hget

theorem Holds.get?_eq_none (h : s.Holds l) (hl : l.Numbered) :
    s.get? id = none ↔ id ∉ s.list.map Record.id := by
  rw [h.list_eq hl, h.get?_eq, Ledger.get?_eq_none]

/-- Ending an expression changes its record in the list, and no other one. -/
theorem Holds.finish_changes (h : s.Holds l) (hl : l.Numbered)
    (hok : (s.finish id ending).1 = .ok record) :
    ∃ r ∈ s.list, r.id = id ∧ record = r.finish ending ∧
      (s.finish id ending).2.list = s.list.map fun r => if r.id = id then record else r := by
  obtain ⟨l', hledger, hnext⟩ := h.finish_ok hok
  obtain ⟨r, hget, -, rfl, rfl⟩ := Ledger.finish_ok hledger
  obtain ⟨hmem, hid⟩ := (h.get?_eq_some hl).mp ((h.get?_eq id).trans hget)
  refine ⟨r, hmem, hid, rfl, ?_⟩
  rw [hnext.list_eq (hl.finish hledger), h.list_eq hl, Ledger.replace]
  simp [Ledger.finish_id, hid]

/-- A record that was ended stays as it is in any further conversation. -/
theorem Holds.finish_lasts (h : s.Holds l) (hl : l.Numbered)
    (hok : (s.finish id ending).1 = .ok record) (more : List Request) :
    ((s.finish id ending).2.converse more).2.get? id = some record := by
  obtain ⟨l', hledger, hnext⟩ := h.finish_ok hok
  obtain ⟨-, hlater, -⟩ := hnext.converse (hl.finish hledger) more
  obtain ⟨r, hget, -, rfl, rfl⟩ := Ledger.finish_ok hledger
  have hnow : (l.replace (r.finish ending)).get? id = some (r.finish ending) := by
    rw [Ledger.get?_replace, Ledger.finish_id, Ledger.id_of_get? hget, if_pos rfl, hget]
    rfl
  have hterminal : (r.finish ending).status.isTerminal = true := by
    simpa [Status.isTerminal] using Ledger.finish_status_ne r ending
  rw [hlater.get?_eq]
  exact Ledger.get?_converse hnow hterminal more

/-! ## After a conversation -/

/-- What a store shows after some requests and what was said to them, and what it would say to one
more. -/
structure KeepsList (qs : List Request) (said : List (Request × Answer)) (s : Store) : Prop where
  /-- What was said is what an append-only list of records says. -/
  said_eq : said = (Ledger.empty.converse qs).1
  /-- The list has the records that were created, in order, numbered from zero by their places, and
  each as it was created or as its one ending left it. -/
  list_eq : s.list = recordsIn said
  idsOnce : (s.list.map Record.id).Nodup
  get?_eq : ∀ id, s.get? id = s.list.find? fun r => r.id == id
  create_error : ∀ r e, (s.create r).1 = .error e ↔
    e = .alreadyExists r.id ∧ r.id ∈ (createdIn said).map Record.id
  create_unchanged : ∀ r e, (s.create r).1 = .error e → (s.create r).2 = s
  finish_error : ∀ id ending e, (s.finish id ending).1 = .error e ↔
    e = .notFound id ∧ id ∉ (createdIn said).map Record.id ∨
      e = .alreadyFinished id ∧ ∃ r ∈ s.list, r.id = id ∧ r.status.isTerminal = true
  finish_unchanged : ∀ id ending e, (s.finish id ending).1 = .error e → (s.finish id ending).2 = s
  /-- Ending an expression changes the status and the result of its record, and nothing else. -/
  finish_changes : ∀ id ending record, (s.finish id ending).1 = .ok record →
    ∃ r ∈ s.list, r.id = id ∧ record = r.finish ending ∧
      record = { r with status := record.status, result := record.result } ∧
      (s.finish id ending).2.list = s.list.map fun r => if r.id = id then record else r
  /-- A record that was ended stays as it is, whatever is asked of the store afterwards. -/
  finish_lasts : ∀ id ending record, (s.finish id ending).1 = .ok record →
    ∀ more, ((s.finish id ending).2.converse more).2.get? id = some record
  /-- If all records were handed in as processing, just those that are done have a value. -/
  result_iff_done : (∀ r, .create r ∈ qs → r = Record.processing r.id r.expression) →
    ∀ r ∈ s.list, r.result.isSome = true ↔ r.status = .done

/-- Whatever is asked of a new store, it keeps the list of the records that were created. -/
theorem converse_keepsList (qs : List Request) :
    KeepsList qs (empty.converse qs).1 (empty.converse qs).2 := by
  obtain ⟨hsaid, hholds, hnumbered⟩ := holds_empty.converse Ledger.numbered_empty qs
  have htold : (Ledger.empty.converse qs).2.Told (empty.converse qs).1 := by
    simpa [hsaid] using Ledger.told_empty.converse Ledger.numbered_empty qs
  have hlist : (empty.converse qs).2.list = recordsIn (empty.converse qs).1 :=
    (hholds.list_eq hnumbered).trans htold.records_eq
  have hids := recordsIn_ids (empty.converse qs).1
  exact {
    said_eq := hsaid
    list_eq := hlist
    idsOnce := hholds.list_eq hnumbered ▸ hnumbered.idsOnce
    get?_eq := fun id => by rw [hholds.list_eq hnumbered, hholds.get?_eq, Ledger.get?]
    create_error := fun r e => by
      rw [create_error_iff, ne_eq, hholds.get?_eq_none hnumbered, not_not, hlist, hids]
    create_unchanged := fun r e => create_refused
    finish_error := fun id ending e => by
      rw [finish_error_iff, hholds.get?_eq_none hnumbered, hlist, hids]
      simp only [hholds.get?_eq_some hnumbered, hlist, and_assoc]
    finish_unchanged := fun id ending e => finish_refused
    finish_changes := fun id ending record hok => by
      obtain ⟨r, hmem, hid, rfl, hnext⟩ := hholds.finish_changes hnumbered hok
      exact ⟨r, hmem, hid, rfl, r.finish_eq ending, hnext⟩
    finish_lasts := fun id ending record hok => hholds.finish_lasts hnumbered hok
    result_iff_done := fun hprocessing r hr => by
      rw [hlist] at hr
      obtain ⟨⟨created, seq⟩, hmem, rfl⟩ := List.mem_map.mp hr
      have hcreate : .create created ∈ qs := by
        rw [← Ledger.converse_requests Ledger.empty qs, ← hsaid]
        exact mem_requests_of_mem_createdIn (List.fst_mem_of_mem_zipIdx hmem)
      have hform := hprocessing created hcreate
      exact Record.result_endedBy (by rw [hform]; rfl) (by rw [hform]; rfl) _ }

end Store

end TaskFarm
