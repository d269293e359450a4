import TaskFarm.Proofs.Farm.Sound
import Mathlib.Data.List.Nodup

/-!
# What a farm asks of its bookkeeper

The records of a farm change only by entries: a record is created when an expression is taken in,
and ended when the expression cannot be read or its run is over.  Which entries a move asks for is
said here for any bookkeeper, so that it can be counted how often a record is ended.
-/

namespace TaskFarm

/-- Something that a bookkeeper is asked to write. -/
inductive Entry where
  | created (id : ExpressionId) (source : String)
  | finished (id : ExpressionId) (ending : Ending)

namespace Entry

def creation? : Entry → Option (ExpressionId × String)
  | .created id source => some (id, source)
  | .finished _ _ => none

/-- The expression that the entry ends. -/
def finishes? : Entry → Option ExpressionId
  | .created _ _ => none
  | .finished id _ => some id

end Entry

namespace Bookkeeper

def post (b : Bookkeeper) (l : Ledger) : Entry → Except LedgerError Ledger
  | .created id source => b.create l (.processing id source)
  | .finished id ending => (b.finish l id ending).map Prod.snd

/-- The ledger after some entries up to the first one that is refused, with the refusal. -/
def write (b : Bookkeeper) (l : Ledger) : List Entry → Ledger × Option LedgerError
  | [] => (l, none)
  | e :: rest =>
    match b.post l e with
    | .ok l => b.write l rest
    | .error refusal => (l, some refusal)

theorem write_append {b : Bookkeeper} {l l' : Ledger} {es : List Entry}
    (h : b.write l es = (l', none)) (rest : List Entry) :
    b.write l (es ++ rest) = b.write l' rest := by
  induction es generalizing l with
  | nil =>
      cases h
      rfl
  | cons e es ih =>
      simp only [write, List.cons_append] at h ⊢
      cases hpost : b.post l e with
      | error refusal =>
          rw [hpost] at h
          cases h
      | ok next =>
          rw [hpost] at h
          exact ih h

end Bookkeeper

/-- Those who hand in expressions or give them up, and walks, have to do with runs and records. -/
def Move.touchesDesk : Move → Bool
  | .accept _ | .abandon _ | .walk _ => true
  | _ => false

namespace Farm

/-- The entries that a move asks for. -/
def entries (f : Farm) : Move → List Entry
  | .accept source =>
    .created f.freshExpression source ::
      match Expr.parse source with
      | .ok _ => []
      | .error _ => [.finished f.freshExpression .failed]
  | .walk r =>
    match f.runs[r]? with
    | none => []
    | some run =>
      match run.isUnderWay, run.walk.stage with
      | true, .finished outcome => [.finished run.expression (ending outcome)]
      | _, _ => []
  | _ => []

/-- The entries that a history of moves asks for. -/
def chronicle (f : Farm) : List Move → List Entry
  | [] => []
  | m :: rest => f.entries m ++ ((f.move? m).map fun f => f.chronicle rest).getD []

variable {f f' : Farm} {r : RunId} {run : Run} {m : Move}

/-! ## Every bookkeeper is asked for just these entries -/

theorem write_accept (f : Farm) (source : String) :
    (f.accept source).2.ledger = (f.books.write f.ledger (f.entries (.accept source))).1 ∧
      ∀ refusal, (f.accept source).1 = .error (.ledger refusal) ↔
        (f.books.write f.ledger (f.entries (.accept source))).2 = some refusal := by
  have hcompile : ∀ cause refusal, FarmError.ofCompileError cause ≠ .ledger refusal := nofun
  simp only [entries, Bookkeeper.write, Bookkeeper.post]
  unfold accept
  simp only
  cases hcreate : f.books.create f.ledger (.processing f.freshExpression source) with
  | error refusal => simp
  | ok ledger =>
      cases hparse : Expr.parse source with
      | ok arena => simp [Bookkeeper.write, beginRun]
      | error cause =>
          cases hfinish : f.books.finish ledger f.freshExpression .failed with
          | error refusal => simp [Bookkeeper.write, Bookkeeper.post, hfinish, Except.map]
          | ok ended => simp [Bookkeeper.write, Bookkeeper.post, hfinish, Except.map, hcompile]

theorem write_conclude (hrun : f.runs[r]? = some run) (outcome : Except EvalError Float) :
    (f.conclude r run outcome).ledger =
        (f.books.write f.ledger [.finished run.expression (ending outcome)]).1 ∧
      ∀ refusal, (f.conclude r run outcome).outcome? r = some (.error (.ledger refusal)) ↔
        (f.books.write f.ledger [.finished run.expression (ending outcome)]).2 = some refusal := by
  obtain ⟨hlt, -⟩ := Array.getElem?_eq_some_iff.mp hrun
  have hwalk : ∀ refusal, ofWalk outcome ≠ .error (.ledger refusal) := by
    intro refusal
    cases outcome <;> nofun
  simp only [conclude, Bookkeeper.write, Bookkeeper.post, releaseSession]
  cases hfinish : f.books.finish f.ledger run.expression (ending outcome) with
  | error refusal => simp [Except.map, outcome?, setRun, hlt, Run.outcome?]
  | ok ended => simp [Except.map, outcome?, setRun, hlt, Run.outcome?, hwalk]

/-- The part of a farm that keeps what becomes of expressions. -/
def desk (f : Farm) : Naming × Bookkeeper × Ledger × Array Run × Nat :=
  (f.naming, f.books, f.ledger, f.runs, f.nextExpression)

theorem desk_workStep? {w : WorkerId} (h : f.workStep? w = some f') : f'.desk = f.desk := by
  have hsubmitted : ∀ (g : Farm) (worker : Worker) (id : TaskId) (submission : Submission),
      (g.afterSubmission w worker id submission).desk = g.desk := by
    intro g worker id submission
    cases submission <;> rfl
  obtain ⟨worker, -, hworks⟩ := workStep?_cases h
  cases hworks with
  | looks =>
      unfold look
      simp only
      split <;> rfl
  | fetches =>
      unfold afterFetchStep
      split <;> rfl
  | submits => exact hsubmitted _ _ _ _
  | resumes => exact hsubmitted _ _ _ _
  | wakes => rfl

theorem desk_move? (h : f.move? m = some f') (hdesk : m.touchesDesk = false) :
    f'.desk = f.desk := by
  cases m with
  | accept | abandon | walk => cases hdesk
  | hire | dismiss | close =>
      rw [← Option.some.inj h]
      rfl
  | relay s =>
      obtain ⟨x, -, rfl⟩ := Option.map_eq_some_iff.mp h
      rfl
  | work w => exact desk_workStep? h
  | quit w =>
      obtain ⟨worker, -, -, -, rfl⟩ := quitStep?_cases h
      rfl
  | wait moment =>
      obtain ⟨-, rfl⟩ := wait_cases h
      rfl

/-- A step of a walk leaves the ledger alone until the walk is over. -/
theorem desk_walkStep? (h : f.walkStep? r = some f') :
    ∃ run, f.runs[r]? = some run ∧ run.progress = .underWay ∧
      ((f.entries (.walk r) = [] ∧
          (f'.desk = f.desk ∨ ∃ walk, f'.desk = (f.setWalk r run walk).desk)) ∨
        ∃ outcome, f.entries (.walk r) = [.finished run.expression (ending outcome)] ∧
          f' = f.conclude r run outcome) := by
  obtain ⟨run, hrun, hprogress, hwalks⟩ := walkStep?_cases h
  have hunderWay : run.isUnderWay = true := by rw [Run.isUnderWay, hprogress]
  refine ⟨run, hrun, hprogress, ?_⟩
  simp only [entries, hrun, hunderWay]
  cases hwalks with
  | turns hstage =>
      rw [hstage]
      exact .inl ⟨rfl, .inr ⟨_, rfl⟩⟩
  | @sends node task hstage sending x _ =>
      rw [hstage]
      cases sending with
      | accepted => exact .inl ⟨rfl, .inr ⟨_, rfl⟩⟩
      | refused => exact .inl ⟨rfl, .inr ⟨_, rfl⟩⟩
      | waiting => exact .inl ⟨rfl, .inl rfl⟩
  | receives hstage =>
      rw [hstage]
      exact .inl ⟨rfl, .inr ⟨_, rfl⟩⟩
  | hangsUp hstage =>
      rw [hstage]
      exact .inl ⟨rfl, .inr ⟨_, rfl⟩⟩
  | @concludes outcome hstage =>
      rw [hstage]
      exact .inr ⟨outcome, rfl, rfl⟩

theorem ledger_of_desk (h : f'.desk = f.desk) : f'.ledger = f.ledger :=
  congrArg (fun desk => desk.2.2.1) h

/-- The ledger changes by the entries of the moves, whoever keeps it. -/
theorem ledger_move? (h : f.move? m = some f') :
    f'.ledger = (f.books.write f.ledger (f.entries m)).1 := by
  cases m with
  | accept source =>
      rw [← Option.some.inj h]
      exact (write_accept f source).1
  | abandon r =>
      rw [← Option.some.inj h]
      unfold abandon
      split
      · rfl
      · split
        · rfl
        · rfl
  | walk r =>
      obtain ⟨run, hrun, -, ⟨hentries, hdesk | ⟨walk, hdesk⟩⟩ | ⟨outcome, hentries, rfl⟩⟩ :=
        desk_walkStep? h
      · rw [hentries]
        exact ledger_of_desk hdesk
      · rw [hentries]
        exact ledger_of_desk (f := f.setWalk r run walk) hdesk
      · rw [hentries]
        exact (write_conclude hrun outcome).1
  | hire | dismiss | close | relay | work | quit | wait =>
      exact ledger_of_desk (desk_move? h rfl)

end Farm

/-! ## What the entries make of a ledger -/

namespace Ledger

variable {l l' : Ledger} {e : Entry} {es : List Entry}

/-- Every record is kept; one that was processing may have been ended meanwhile, once. -/
def Follows (l l' : Ledger) : Prop :=
  ∀ id record, l.get? id = some record → ∃ record', l'.get? id = some record' ∧
    (record' = record ∨
      record.status = .processing ∧ ∃ ending, record' = record.finish ending)

theorem Follows.refl (l : Ledger) : l.Follows l :=
  fun _ record hget => ⟨record, hget, .inl rfl⟩

theorem Follows.trans {l₁ l₂ l₃ : Ledger} (h : l₁.Follows l₂) (h' : l₂.Follows l₃) :
    l₁.Follows l₃ := by
  intro id record hget
  obtain ⟨record₂, hget₂, rfl | ⟨hprocessing, ending, rfl⟩⟩ := h id record hget
  · exact h' id _ hget₂
  · obtain ⟨record₃, hget₃, rfl | ⟨hagain, -⟩⟩ := h' id _ hget₂
    · exact ⟨_, hget₃, .inr ⟨hprocessing, ending, rfl⟩⟩
    · exact absurd hagain (finish_status_ne record ending)

/-- Everything that an entry can make of a ledger. -/
theorem post_cases (h : Bookkeeper.regular.post l e = .ok l') :
    (∃ id source, e = .created id source ∧ l.get? id = none ∧
      l.create (.processing id source) = .ok l') ∨
    ∃ id ending record, e = .finished id ending ∧ l.get? id = some record ∧
      record.status = .processing ∧ l.finish id ending = .ok (record.finish ending, l') := by
  cases e with
  | created id source => exact .inl ⟨id, source, rfl, (create_ok h).1, h⟩
  | finished id ending =>
      have hpost : (l.finish id ending).map Prod.snd = .ok l' := h
      cases hfinish : l.finish id ending with
      | error refusal =>
          rw [hfinish] at hpost
          cases hpost
      | ok ended =>
          rw [hfinish] at hpost
          obtain rfl := Except.ok.inj hpost
          obtain ⟨record, hget, hprocessing, hrecord, -⟩ := finish_ok hfinish
          exact .inr ⟨id, ending, record, rfl, hget, hprocessing, by rw [← hrecord]; exact hfinish⟩

/-- An entry creates one record or ends one, and leaves all others as they are. -/
theorem get?_of_post (h : Bookkeeper.regular.post l e = .ok l') :
    (∃ id source record, e = .created id source ∧ l.get? id = none ∧ l'.get? id = some record ∧
      record.status = .processing ∧ ∀ id', id' ≠ id → l'.get? id' = l.get? id') ∨
    ∃ id ending record, e = .finished id ending ∧ l.get? id = some record ∧
      record.status = .processing ∧ l'.get? id = some (record.finish ending) ∧
      ∀ id', id' ≠ id → l'.get? id' = l.get? id' := by
  rcases post_cases h with ⟨id, source, he, hnone, hcreate⟩ |
    ⟨id, ending, record, he, hget, hprocessing, hfinish⟩
  · obtain ⟨-, hcreated, hothers⟩ := create_ok hcreate
    exact .inl ⟨id, source, _, he, hnone, hcreated, rfl, hothers⟩
  · obtain ⟨l₁, hfinish₁, hended, hothers⟩ := finish_processing hget hprocessing ending
    rw [hfinish₁] at hfinish
    obtain rfl := (Prod.mk.inj (Except.ok.inj hfinish)).2
    exact .inr ⟨id, ending, record, he, hget, hprocessing, hended, hothers⟩

theorem follows_post (h : Bookkeeper.regular.post l e = .ok l') : l.Follows l' := by
  intro id record hget
  rcases get?_of_post h with ⟨id', source, -, -, hnone, -, -, hothers⟩ |
    ⟨id', ending, record', -, hget', hprocessing, hended, hothers⟩
  · have hne : id ≠ id' := by
      rintro rfl
      cases hnone.symm.trans hget
    exact ⟨record, (hothers id hne).trans hget, .inl rfl⟩
  · by_cases he : id = id'
    · subst he
      obtain rfl := Option.some.inj (hget'.symm.trans hget)
      exact ⟨_, hended, .inr ⟨hprocessing, ending, rfl⟩⟩
    · exact ⟨record, (hothers id he).trans hget, .inl rfl⟩

theorem sources_of_post (honce : (l.records.map Record.id).Nodup)
    (h : Bookkeeper.regular.post l e = .ok l') :
    (l'.records.map Record.id).Nodup ∧
      l'.records.map (fun r => (r.id, r.expression)) =
        l.records.map (fun r => (r.id, r.expression)) ++ e.creation?.toList := by
  have hids : ∀ ledger : Ledger, ledger.records.map Record.id =
      (ledger.records.map fun r => (r.id, r.expression)).map Prod.fst := by
    simp
  rcases post_cases h with ⟨id, source, rfl, hnone, hcreate⟩ |
    ⟨id, ending, record, rfl, -, -, hfinish⟩
  · have hrecords := create_eq hcreate
    constructor
    · have hperm : (l'.records.map Record.id).Perm (id :: l.records.map Record.id) := by
        simp [hrecords, Record.processing]
      exact hperm.nodup_iff.mpr (List.nodup_cons.mpr ⟨get?_eq_none.mp hnone, honce⟩)
    · simp [hrecords, Record.processing, Entry.creation?]
  · have hsources := finish_sources honce hfinish
    constructor
    · rw [hids, hsources, ← hids]
      exact honce
    · simpa [Entry.creation?] using hsources

/-! A list of entries of which none is refused. -/

theorem write_cons (h : Bookkeeper.regular.write l (e :: es) = (l', none)) :
    ∃ next, Bookkeeper.regular.post l e = .ok next ∧
      Bookkeeper.regular.write next es = (l', none) := by
  simp only [Bookkeeper.write] at h
  cases hpost : Bookkeeper.regular.post l e with
  | error refusal =>
      rw [hpost] at h
      cases h
  | ok next =>
      rw [hpost] at h
      exact ⟨next, rfl, h⟩

theorem follows_write (h : Bookkeeper.regular.write l es = (l', none)) : l.Follows l' := by
  induction es generalizing l with
  | nil =>
      cases h
      exact Follows.refl _
  | cons e es ih =>
      obtain ⟨next, hpost, hrest⟩ := write_cons h
      exact (follows_post hpost).trans (ih hrest)

theorem sources_of_write (honce : (l.records.map Record.id).Nodup)
    (h : Bookkeeper.regular.write l es = (l', none)) :
    (l'.records.map Record.id).Nodup ∧
      l'.records.map (fun r => (r.id, r.expression)) =
        l.records.map (fun r => (r.id, r.expression)) ++ es.filterMap Entry.creation? := by
  induction es generalizing l with
  | nil =>
      cases h
      exact ⟨honce, by simp⟩
  | cons e es ih =>
      obtain ⟨next, hpost, hrest⟩ := write_cons h
      obtain ⟨hnext, hsources⟩ := sources_of_post honce hpost
      obtain ⟨hlast, hmore⟩ := ih hnext hrest
      refine ⟨hlast, ?_⟩
      rw [hmore, hsources, List.append_assoc]
      cases hcreation : e.creation? with
      | none => simp [hcreation]
      | some creation => simp [hcreation]

/-- No record is ended twice, and those that are not ended are processing. -/
theorem finishes_of_write (h : Bookkeeper.regular.write l es = (l', none)) :
    (es.filterMap Entry.finishes?).Nodup ∧
      (∀ id ∈ es.filterMap Entry.finishes?, ∀ record, l.get? id = some record →
        record.status = .processing) ∧
      ∀ id record, l'.get? id = some record →
        (record.status = .processing ↔ id ∉ es.filterMap Entry.finishes? ∧
          ∀ old, l.get? id = some old → old.status = .processing) := by
  induction es generalizing l with
  | nil =>
      cases h
      refine ⟨List.nodup_nil, nofun, fun id record hget => ?_⟩
      simp [hget]
  | cons e es ih =>
      obtain ⟨next, hpost, hrest⟩ := write_cons h
      obtain ⟨honce, hprocessing, hstatus⟩ := ih hrest
      rcases get?_of_post hpost with ⟨id, source, record, rfl, hnone, hnew, hfresh, hothers⟩ |
        ⟨id, ending, record, rfl, hget, hwas, hended, hothers⟩
      · have hsame : ∀ id', (∀ old, next.get? id' = some old → old.status = .processing) ↔
            ∀ old, l.get? id' = some old → old.status = .processing := by
          intro id'
          by_cases he : id' = id
          · subst he
            simp [hnone, hnew, hfresh]
          · rw [hothers id' he]
        refine ⟨honce, fun id' hid' => (hsame id').mp (hprocessing id' hid'), ?_⟩
        intro id' record' hget'
        exact (hstatus id' record' hget').trans (and_congr_right fun _ => hsame id')
      · have hlast : id ∉ es.filterMap Entry.finishes? := fun hid =>
          finish_status_ne record ending (hprocessing id hid _ hended)
        refine ⟨List.nodup_cons.mpr ⟨hlast, honce⟩, ?_, ?_⟩
        · intro id' hid' old hold
          by_cases he : id' = id
          · subst he
            rwa [← Option.some.inj (hget.symm.trans hold)]
          · have hmem : id' ∈ es.filterMap Entry.finishes? := by
              simpa [Entry.finishes?, he] using hid'
            exact hprocessing id' hmem old ((hothers id' he).trans hold)
        · intro id' record' hget'
          rw [hstatus id' record' hget']
          by_cases he : id' = id
          · subst he
            have hterminal := finish_status_ne record ending
            simp [Entry.finishes?, hended, hterminal]
          · simp [Entry.finishes?, he, hothers id' he]

end Ledger

end TaskFarm
