import TaskFarm.Proofs.Ledger
import TaskFarm.Store

/-!
# The store refines the ledger

A store has a hash table and a counter, a ledger has a list at whose end records are added.  They
say the same to every sequence of requests: the store finds in its slots what the ledger finds in
its list, and the numbers of the records sort the slots into that list.
-/

namespace TaskFarm

/-! ## The ledger in conversation -/

namespace Ledger

/-- Do what is asked; what there is to say, and the ledger afterwards. -/
def answer (l : Ledger) : Request → Answer × Ledger
  | .create r =>
    match l.create r with
    | .ok l => (.created, l)
    | .error e => (.refused e, l)
  | .finish id ending =>
    match l.finish id ending with
    | .ok (r, l) => (.finished r, l)
    | .error e => (.refused e, l)
  | .get id => (.found (l.get? id), l)
  | .list => (.listed l.records, l)

/-- Everything said in a conversation, and the ledger afterwards. -/
def converse (l : Ledger) : List Request → List (Request × Answer) × Ledger
  | [] => ([], l)
  | q :: qs =>
    let (said, l) := l.answer q
    let (more, l) := l.converse qs
    ((q, said) :: more, l)

/-- A request changes the ledger only by a successful creation or a successful ending. -/
theorem answer_cases (l : Ledger) (q : Request) :
    ((l.answer q).2 = l ∧ (l.answer q).1 ≠ .created ∧ ∀ r, (l.answer q).1 ≠ .finished r) ∨
    (∃ r l', q = .create r ∧ l.create r = .ok l' ∧ l.answer q = (.created, l')) ∨
    (∃ id ending record l', q = .finish id ending ∧ l.finish id ending = .ok (record, l') ∧
      l.answer q = (.finished record, l')) := by
  cases q with
  | create r =>
      cases hl : l.create r with
      | error e => simp [answer, hl]
      | ok l' => exact .inr (.inl ⟨r, l', rfl, hl, by simp [answer, hl]⟩)
  | finish id ending =>
      cases hl : l.finish id ending with
      | error e => simp [answer, hl]
      | ok found => exact .inr (.inr ⟨id, ending, found.1, found.2, rfl, hl, by simp [answer, hl]⟩)
  | get id => simp [answer]
  | list => simp [answer]

/-- The records are numbered by their places, and no expression has two. -/
structure Numbered (l : Ledger) : Prop where
  seqs : l.records.map Record.seq = List.range l.records.length
  idsOnce : (l.records.map Record.id).Nodup

theorem numbered_empty : empty.Numbered :=
  ⟨rfl, List.nodup_nil⟩

theorem Numbered.create {l l' : Ledger} {r : Record} (h : l.Numbered) (hl : l.create r = .ok l') :
    l'.Numbered := by
  have hrecords := create_eq hl
  constructor
  · simp [hrecords, h.seqs, List.range_succ]
  · have hfresh := get?_eq_none.mp (create_ok hl).1
    simpa [hrecords, List.nodup_append, h.idsOnce] using hfresh

theorem Numbered.finish {l l' : Ledger} {id : ExpressionId} {ending : Ending} {record : Record}
    (h : l.Numbered) (hl : l.finish id ending = .ok (record, l')) : l'.Numbered := by
  have hids := map_finish finish_id h.idsOnce hl
  have hlength := congrArg List.length hids
  simp only [List.length_map] at hlength
  constructor
  · rw [map_finish finish_seq h.idsOnce hl, hlength]
    exact h.seqs
  · rw [hids]
    exact h.idsOnce

theorem Numbered.answer {l : Ledger} (h : l.Numbered) (q : Request) : (l.answer q).2.Numbered := by
  rcases l.answer_cases q with ⟨hl, -⟩ | ⟨r, l', -, hl, hanswer⟩ |
    ⟨id, ending, record, l', -, hl, hanswer⟩
  · rwa [hl]
  · rw [hanswer]
    exact h.create hl
  · rw [hanswer]
    exact h.finish hl

/-- The numbers sort the records. -/
theorem Numbered.sorted {l : Ledger} (h : l.Numbered) :
    l.records.Pairwise fun a b => a.seq < b.seq := by
  have hsorted : (l.records.map Record.seq).Pairwise (· < ·) := h.seqs ▸ List.pairwise_lt_range
  exact List.pairwise_map.mp hsorted

theorem Numbered.mem_iff_get? {l : Ledger} (h : l.Numbered) {r : Record} :
    r ∈ l.records ↔ l.get? r.id = some r := by
  constructor
  · intro hr
    cases hget : l.get? r.id with
    | none => exact absurd (List.mem_map_of_mem hr) (get?_eq_none.mp hget)
    | some found =>
        have hsame := List.inj_on_of_nodup_map h.idsOnce (mem_of_get? hget) hr (id_of_get? hget)
        rw [hsame]
  · exact mem_of_get?

end Ledger

/-! ## The store beside the ledger -/

namespace Store

/-- The store finds what the ledger finds, and counts the same records. -/
structure Holds (s : Store) (l : Ledger) : Prop where
  nextSeq_eq : s.nextSeq = l.records.length
  get?_eq : ∀ id, s.get? id = l.get? id

variable {s : Store} {l : Ledger}

theorem holds_empty : empty.Holds Ledger.empty :=
  ⟨rfl, fun _ => Std.HashMap.getElem?_empty⟩

theorem get?_put (s : Store) (id : ExpressionId) (r : Record) (id' : ExpressionId) :
    (s.put id r).get? id' = if id' = id then some r else s.get? id' := by
  have hkeys : (id == id') = true ↔ id' = id := by rw [beq_iff_eq, eq_comm]
  simp only [get?, put, Std.HashMap.getElem?_insert, hkeys]

/-- Putting a record in the slot of its expression follows a ledger that has changed only there. -/
theorem Holds.get?_put {l' : Ledger} {id : ExpressionId} {r : Record} (h : s.Holds l)
    (hnew : l'.get? id = some r) (hothers : ∀ id', id' ≠ id → l'.get? id' = l.get? id')
    (id' : ExpressionId) : (s.put id r).get? id' = l'.get? id' := by
  rw [Store.get?_put]
  split
  · next heq => rw [heq, hnew]
  · next hne => exact (h.get?_eq id').trans (hothers id' hne).symm

/-- Both create a record, or both refuse to and stay as they are. -/
theorem Holds.create (h : s.Holds l) (r : Record) :
    (∃ e, l.create r = .error e ∧ s.create r = (.error e, s)) ∨
      ∃ l' s', l.create r = .ok l' ∧ s.create r = (.ok (), s') ∧ s'.Holds l' := by
  cases hget : l.get? r.id with
  | some old =>
      refine .inl ⟨.alreadyExists r.id, ?_, ?_⟩
      · simp [Ledger.create, hget]
      · simp [Store.create, h.get?_eq, hget]
  | none =>
      have hl := Ledger.create_fresh hget
      obtain ⟨-, hnew, hothers⟩ := Ledger.create_ok hl
      have hs : s.create r =
          (.ok (), s.number.2.put r.id { r with seq := l.records.length }) := by
        simp [Store.create, h.get?_eq, hget, number, h.nextSeq_eq]
      refine .inr ⟨_, _, hl, hs, ?_, fun id => ?_⟩
      · simp [put, number, h.nextSeq_eq]
      · exact h.get?_put hnew hothers id

/-- Both end a record in the same way, or both refuse to and stay as they are. -/
theorem Holds.finish (h : s.Holds l) (id : ExpressionId) (ending : Ending) :
    (∃ e, l.finish id ending = .error e ∧ s.finish id ending = (.error e, s)) ∨
      ∃ r l' s', l.finish id ending = .ok (r, l') ∧ s.finish id ending = (.ok r, s') ∧
        s'.Holds l' := by
  cases hget : l.get? id with
  | none =>
      refine .inl ⟨.notFound id, ?_, ?_⟩
      · simp [Ledger.finish, hget]
      · simp [Store.finish, h.get?_eq, hget]
  | some r =>
      by_cases hterminal : r.status.isTerminal = true
      · refine .inl ⟨.alreadyFinished id, ?_, ?_⟩
        · simp [Ledger.finish, hget, hterminal]
        · simp [Store.finish, h.get?_eq, hget, hterminal]
      · have hprocessing : r.status = .processing := by
          simpa [Status.isTerminal] using hterminal
        obtain ⟨l', hl, hnew, hothers⟩ := Ledger.finish_processing hget hprocessing ending
        have hs : s.finish id ending = (.ok (r.finish ending), s.put id (r.finish ending)) := by
          simp [Store.finish, h.get?_eq, hget, hterminal]
        refine .inr ⟨_, l', _, hl, hs, ?_, fun id' => h.get?_put hnew hothers id'⟩
        obtain ⟨-, -, -, -, rfl⟩ := Ledger.finish_ok hl
        simp [put, Ledger.replace, h.nextSeq_eq]

theorem Holds.finish_ok {id : ExpressionId} {ending : Ending} {record : Record} (h : s.Holds l)
    (hok : (s.finish id ending).1 = .ok record) :
    ∃ l', l.finish id ending = .ok (record, l') ∧ (s.finish id ending).2.Holds l' := by
  rcases h.finish id ending with ⟨e, -, hs⟩ | ⟨r, l', s', hl, hs, hnext⟩
  · rw [hs] at hok
    cases hok
  · rw [hs] at hok ⊢
    cases hok
    exact ⟨l', hl, hnext⟩

/-- Sorting the slots by their numbers gives the list of the ledger. -/
theorem Holds.list_eq (h : s.Holds l) (hl : l.Numbered) : s.list = l.records := by
  have hslot {id : ExpressionId} {r : Record} (hr : (id, r) ∈ s.slots.toList) :
      l.get? id = some r :=
    (h.get?_eq id).symm.trans (Std.HashMap.mem_toList_iff_getElem?_eq_some.mp hr)
  have hslots : (s.slots.toList.map Prod.snd).Nodup := by
    refine List.Nodup.map_on ?_ ?_
    · rintro ⟨id, r⟩ hp ⟨id', r'⟩ hp' rfl
      rw [← Ledger.id_of_get? (hslot hp), ← Ledger.id_of_get? (hslot hp')]
    · refine Std.HashMap.distinct_keys_toList.imp fun {p p'} hne heq => ?_
      simp [heq] at hne
  have hmembers : ∀ r, r ∈ s.slots.toList.map Prod.snd ↔ r ∈ l.records := by
    intro r
    rw [hl.mem_iff_get?]
    constructor
    · rintro hr
      obtain ⟨⟨id, r⟩, hp, rfl⟩ := List.mem_map.mp hr
      have hget := hslot hp
      rwa [Ledger.id_of_get? hget]
    · intro hr
      refine List.mem_map.mpr ⟨(r.id, r), Std.HashMap.mem_toList_iff_getElem?_eq_some.mpr ?_, rfl⟩
      exact (h.get?_eq r.id).trans hr
  have hperm : s.list.Perm l.records :=
    (List.mergeSort_perm _ _).trans
      ((List.perm_ext_iff_of_nodup hslots (List.Nodup.of_map _ hl.idsOnce)).mpr hmembers)
  -- two records with the same number are one, because the ledger numbers them apart
  have hantisymm : ∀ a b : Record, a ∈ s.list → b ∈ l.records → a.seq ≤ b.seq → b.seq ≤ a.seq →
      a = b := by
    intro a b ha hb hab hba
    have hseqs : (l.records.map Record.seq).Nodup := hl.seqs ▸ List.nodup_range
    exact List.inj_on_of_nodup_map hseqs (hperm.subset ha) hb (Nat.le_antisymm hab hba)
  have hsorted : s.list.Pairwise fun a b => decide (a.seq ≤ b.seq) = true := by
    refine List.pairwise_mergeSort ?_ ?_ _
    · intro a b c hab hbc
      exact decide_eq_true (Nat.le_trans (of_decide_eq_true hab) (of_decide_eq_true hbc))
    · intro a b
      simpa using Nat.le_total a.seq b.seq
  exact List.Perm.eq_of_pairwise hantisymm (hsorted.imp of_decide_eq_true)
    (hl.sorted.imp Nat.le_of_lt) hperm

/-- The store says to a request what the ledger says to it. -/
theorem Holds.answer (h : s.Holds l) (hl : l.Numbered) (q : Request) :
    (s.answer q).1 = (l.answer q).1 ∧ (s.answer q).2.Holds (l.answer q).2 := by
  cases q with
  | create r =>
      rcases h.create r with ⟨e, hledger, hstore⟩ | ⟨l', s', hledger, hstore, hnext⟩
      · simpa [Store.answer, Ledger.answer, hledger, hstore] using h
      · simpa [Store.answer, Ledger.answer, hledger, hstore] using hnext
  | finish id ending =>
      rcases h.finish id ending with ⟨e, hledger, hstore⟩ | ⟨r, l', s', hledger, hstore, hnext⟩
      · simpa [Store.answer, Ledger.answer, hledger, hstore] using h
      · simpa [Store.answer, Ledger.answer, hledger, hstore] using hnext
  | get id => exact ⟨congrArg Answer.found (h.get?_eq id), h⟩
  | list => exact ⟨congrArg Answer.listed (h.list_eq hl), h⟩

/-- In a whole conversation the store says what the ledger says. -/
theorem Holds.converse (h : s.Holds l) (hl : l.Numbered) (qs : List Request) :
    (s.converse qs).1 = (l.converse qs).1 ∧ (s.converse qs).2.Holds (l.converse qs).2 ∧
      (l.converse qs).2.Numbered := by
  induction qs generalizing s l with
  | nil => exact ⟨rfl, h, hl⟩
  | cons q qs ih =>
      obtain ⟨hsaid, hnext⟩ := h.answer hl q
      obtain ⟨hmore, hlast⟩ := ih hnext (hl.answer q)
      exact ⟨by simp [Store.converse, Ledger.converse, hsaid, hmore], hlast⟩

end Store

end TaskFarm
