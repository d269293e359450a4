import TaskFarm.Proofs.Farm.Entries
import TaskFarm.Proofs.Farm.Evaluation

/-!
# Every call has one record

Whatever moves are made at a farm whose expressions get distinct names, the ledger never refuses
anything: each call creates a record of its own, which is processing until the call or its run ends
it, once, and then says what the caller is told.
-/

namespace TaskFarm

/-- The source that a move hands in. -/
def Move.source? : Move → Option String
  | .accept source => some source
  | _ => none

/-- Sources with the names that they get in the order of their coming. -/
def Naming.entitled (naming : Naming) (sources : List String) : List (ExpressionId × String) :=
  sources.zipIdx.map fun (source, k) => (naming.expression k, source)

/-- A record fits how far its run has come. -/
def Progress.Noted (record : Record) : Progress → Prop
  | .ended outcome => record.Notes outcome ∧ ∀ refusal, outcome ≠ .error (.ledger refusal)
  | .underWay | .abandoned => record.status = .processing ∧ record.result = none

/-- The record of an expression that cannot be read. -/
def Record.Unread (record : Record) : Prop :=
  record.status = .error ∧ record.result = none ∧
    ∃ cause, Expr.parse record.expression = .error cause

/-- A record tells what is known of the outcome that somebody waits for. -/
structure Record.Tells (record : Record) (outcome : Option (Except FarmError Float)) : Prop where
  value : ∀ v, outcome = some (.ok v) ↔ record.status = .done ∧ record.result = some v
  failure : (∃ e, outcome = some (.error e)) ↔ record.status = .error ∧ record.result = none
  pending : outcome = none ↔ record.status = .processing ∧ record.result = none
  admitted : ∀ refusal, outcome ≠ some (.error (.ledger refusal))

/-- A run stays that of its expression, and as it is once it is over or given up. -/
def Run.Continues (run run' : Run) : Prop :=
  run'.expression = run.expression ∧ (run.progress ≠ .underWay → run' = run)

theorem Run.Continues.refl (run : Run) : run.Continues run :=
  ⟨rfl, fun _ => rfl⟩

theorem Run.Continues.trans {run₁ run₂ run₃ : Run} (h : run₁.Continues run₂)
    (h' : run₂.Continues run₃) : run₁.Continues run₃ := by
  constructor
  · exact h'.1.trans h.1
  · intro hover
    obtain rfl := h.2 hover
    exact h'.2 hover

theorem Progress.Noted.tells {run : Run} {record : Record} (h : run.progress.Noted record) :
    record.Tells run.outcome? := by
  unfold Run.outcome?
  cases hprogress : run.progress with
  | underWay =>
      rw [hprogress] at h
      constructor <;> simp [h.1, h.2]
  | abandoned =>
      rw [hprogress] at h
      constructor <;> simp [h.1, h.2]
  | ended outcome =>
      rw [hprogress] at h
      obtain ⟨hnotes, hadmitted⟩ := h
      cases outcome with
      | ok value =>
          obtain ⟨hstatus, hresult⟩ := hnotes
          constructor <;> simp [hstatus, hresult]
      | error e =>
          obtain ⟨hstatus, hresult⟩ := hnotes
          constructor
          · simp [hstatus]
          · simp [hstatus, hresult]
          · simp [hstatus]
          · intro refusal he
            exact hadmitted refusal (Option.some.inj he)

namespace Naming

variable {naming : Naming} {sources : List String}

theorem entitled_append (naming : Naming) (sources : List String) (source : String) :
    naming.entitled (sources ++ [source]) =
      naming.entitled sources ++ [(naming.expression sources.length, source)] := by
  simp [entitled, List.zipIdx_append]

theorem entitled_fst (naming : Naming) (sources : List String) :
    (naming.entitled sources).map Prod.fst =
      (List.range sources.length).map naming.expression := by
  rw [List.range_eq_range', ← List.zipIdx_map_snd, entitled, List.map_map, List.map_map]
  rfl

end Naming

namespace Farm

variable {naming : Naming} {settings : Settings} {sources : List String} {f f' : Farm} {r : RunId}
  {run : Run} {m : Move}

/-- Every source has its record, and every record that of a run or of a failed reading. -/
structure Booked (naming : Naming) (sources : List String) (f : Farm) : Prop where
  naming_eq : f.naming = naming
  books_eq : f.books = .regular
  counted : f.nextExpression = sources.length
  entitled : f.ledger.records.map (fun r => (r.id, r.expression)) = naming.entitled sources
  noted : ∀ (r : RunId) (run : Run), f.runs[r]? = some run →
    ∃ record, f.ledger.get? run.expression = some record ∧ run.progress.Noted record
  attended : ∀ id record, f.ledger.get? id = some record →
    (∃ (r : RunId) (run : Run), f.runs[r]? = some run ∧ run.expression = id) ∨ record.Unread
  apart : ∀ (r r' : RunId) (run run' : Run), f.runs[r]? = some run → f.runs[r']? = some run' →
    r ≠ r' → run.expression ≠ run'.expression

theorem booked_opened (naming : Naming) (settings : Settings) :
    (openedWith naming settings .regular).Booked naming [] where
  naming_eq := rfl
  books_eq := rfl
  counted := rfl
  entitled := rfl
  noted := by simp [openedWith]
  attended := nofun
  apart := by simp [openedWith]

theorem Booked.of_desk (h : f.Booked naming sources) (hdesk : f'.desk = f.desk) :
    f'.Booked naming sources := by
  simp only [desk, Prod.mk.injEq] at hdesk
  obtain ⟨hnaming, hbooks, hledger, hruns, hnext⟩ := hdesk
  constructor
  · rw [hnaming, h.naming_eq]
  · rw [hbooks, h.books_eq]
  · rw [hnext, h.counted]
  · rw [hledger, h.entitled]
  · rw [hledger, hruns]
    exact h.noted
  · rw [hledger, hruns]
    exact h.attended
  · rw [hruns]
    exact h.apart

/-- A run goes on with its expression, of which alone the ledger may say something else now. -/
theorem Booked.setRun (h : f.Booked naming sources) (hrun : f.runs[r]? = some run) (run' : Run)
    (hexpression : run'.expression = run.expression) {ledger : Ledger}
    (hentitled : ledger.records.map (fun r => (r.id, r.expression)) =
      f.ledger.records.map fun r => (r.id, r.expression))
    (hothers : ∀ id, id ≠ run.expression → ledger.get? id = f.ledger.get? id) {record : Record}
    (hget : ledger.get? run.expression = some record) (hnoted : run'.progress.Noted record) :
    (({ f with ledger } : Farm).setRun r run').Booked naming sources := by
  have hruns : ∀ r', (({ f with ledger } : Farm).setRun r run').runs[r']? =
      if r' = r then some run' else f.runs[r']? :=
    setRun_getElem? (f := { f with ledger }) hrun run'
  constructor
  · exact h.naming_eq
  · exact h.books_eq
  · exact h.counted
  · exact hentitled.trans h.entitled
  · intro r' found hfound
    rcases setRun_cases (f := { f with ledger }) hrun hfound with ⟨rfl, rfl⟩ | ⟨hne, hold⟩
    · exact ⟨record, hexpression ▸ hget, hnoted⟩
    · obtain ⟨old, hkept, hfits⟩ := h.noted r' found hold
      exact ⟨old, (hothers _ (h.apart _ _ _ _ hold hrun hne)).trans hkept, hfits⟩
  · intro id found hfound
    by_cases he : id = run.expression
    · exact .inl ⟨r, run', by simp [hruns], hexpression.trans he.symm⟩
    · rcases h.attended id found ((hothers id he).symm.trans hfound) with
        ⟨r', other, hother, hid⟩ | hunread
      · have hne : r' ≠ r := by
          rintro rfl
          exact he (hid ▸ congrArg Run.expression (Option.some.inj (hother.symm.trans hrun)))
        exact .inl ⟨r', other, by rw [hruns, if_neg hne, hother], hid⟩
      · exact .inr hunread
  · have hkept : ∀ (r' : RunId) (found : Run),
        (({ f with ledger } : Farm).setRun r run').runs[r']? = some found →
        ∃ old, f.runs[r']? = some old ∧ found.expression = old.expression := by
      intro r' found hfound
      rcases setRun_cases (f := { f with ledger }) hrun hfound with ⟨rfl, rfl⟩ | ⟨-, hold⟩
      · exact ⟨run, hrun, hexpression⟩
      · exact ⟨found, hold, rfl⟩
    intro r₁ r₂ run₁ run₂ hrun₁ hrun₂ hne
    obtain ⟨old₁, hold₁, he₁⟩ := hkept r₁ run₁ hrun₁
    obtain ⟨old₂, hold₂, he₂⟩ := hkept r₂ run₂ hrun₂
    rw [he₁, he₂]
    exact h.apart _ _ _ _ hold₁ hold₂ hne

/-! ## Nothing is refused -/

theorem Booked.ids (h : f.Booked naming sources) :
    f.ledger.records.map Record.id = (List.range sources.length).map naming.expression := by
  rw [← Naming.entitled_fst, ← h.entitled, List.map_map]
  rfl

theorem Booked.idsOnce (h : f.Booked naming sources)
    (hids : Function.Injective naming.expression) : (f.ledger.records.map Record.id).Nodup := by
  rw [h.ids]
  exact List.nodup_range.map hids

theorem Booked.fresh (h : f.Booked naming sources) (hids : Function.Injective naming.expression) :
    f.ledger.get? f.freshExpression = none := by
  rw [Ledger.get?_eq_none, h.ids, freshExpression, h.naming_eq, h.counted]
  intro hmem
  obtain ⟨k, hk, he⟩ := List.mem_map.mp hmem
  exact absurd (hids he) (Nat.ne_of_lt (List.mem_range.mp hk))

/-- A call creates the record of its source, and ends it at once if the source cannot be read. -/
theorem Booked.write_accept (h : f.Booked naming sources)
    (hids : Function.Injective naming.expression) (source : String) :
    ∃ ledger record,
      Bookkeeper.regular.write f.ledger (f.entries (.accept source)) = (ledger, none) ∧
      ledger.get? f.freshExpression = some record ∧ record.expression = source ∧
      (∀ id, id ≠ f.freshExpression → ledger.get? id = f.ledger.get? id) ∧
      match Expr.parse source with
      | .ok _ => record.status = .processing ∧ record.result = none
      | .error _ => record.status = .error ∧ record.result = none := by
  have hcreate := Ledger.create_fresh (r := .processing f.freshExpression source) (h.fresh hids)
  obtain ⟨-, hget, hothers⟩ := Ledger.create_ok hcreate
  have hpost : Bookkeeper.regular.post f.ledger (.created f.freshExpression source) = .ok _ :=
    hcreate
  simp only [entries, Bookkeeper.write, hpost]
  cases Expr.parse source with
  | ok arena => exact ⟨_, _, rfl, hget, rfl, hothers, rfl, rfl⟩
  | error cause =>
      obtain ⟨ended, hfinish, hended, hstill⟩ := Ledger.finish_processing hget rfl .failed
      refine ⟨ended, _, ?_, hended, rfl, ?_, rfl, rfl⟩
      · have hpost' : Bookkeeper.regular.post _ (.finished f.freshExpression .failed) = .ok ended :=
          congrArg (Except.map Prod.snd) hfinish
        simp only [Bookkeeper.write, hpost']
      · exact fun id hne => (hstill id hne).trans (hothers id hne)

/-! ## Moves -/

theorem accept_readable {source : String} {arena : Expr.Arena}
    (hwrite : (f.books.write f.ledger (f.entries (.accept source))).2 = none)
    (hparse : Expr.parse source = .ok arena) :
    (f.accept source).1 = .ok f.runs.size ∧ ∃ run, run.expression = f.freshExpression ∧
      run.progress = .underWay ∧ (f.accept source).2.runs = f.runs.push run := by
  simp only [entries, hparse, Bookkeeper.write, Bookkeeper.post] at hwrite
  cases haccept : f.accept source with
  | mk result f' =>
      cases accept_cases haccept with
      | refused hcreate => simp [hcreate] at hwrite
      | begins => exact ⟨rfl, _, rfl, rfl, rfl⟩
      | unfinished _ hfailed => cases hparse.symm.trans hfailed
      | rejects _ hfailed => cases hparse.symm.trans hfailed

theorem accept_unreadable {source : String} {cause : Expr.CompileError}
    (hwrite : (f.books.write f.ledger (f.entries (.accept source))).2 = none)
    (hparse : Expr.parse source = .error cause) :
    (f.accept source).1 = .error (.ofCompileError cause) ∧
      (f.accept source).2.runs = f.runs ∧ (f.accept source).2.exchange = f.exchange := by
  simp only [entries, hparse, Bookkeeper.write, Bookkeeper.post] at hwrite
  cases haccept : f.accept source with
  | mk result f' =>
      cases accept_cases haccept with
      | refused hcreate => simp [hcreate] at hwrite
      | begins _ hread => cases hparse.symm.trans hread
      | unfinished hcreate _ hfinish => simp [hcreate, hfinish, Except.map] at hwrite
      | rejects _ hfailed =>
          cases hparse.symm.trans hfailed
          exact ⟨rfl, rfl, rfl⟩

theorem accept_counts (f : Farm) (source : String) :
    (f.accept source).2.naming = f.naming ∧ (f.accept source).2.books = f.books ∧
      (f.accept source).2.nextExpression = f.nextExpression + 1 := by
  obtain ⟨ledger, exchange, runs, haccept⟩ := f.accept_eq source
  rw [haccept]
  exact ⟨rfl, rfl, rfl⟩

/-- No run has the record that a call creates. -/
theorem Booked.unused (h : f.Booked naming sources) (hids : Function.Injective naming.expression)
    (hrun : f.runs[r]? = some run) : run.expression ≠ f.freshExpression := by
  intro he
  obtain ⟨record, hget, -⟩ := h.noted r run hrun
  rw [he] at hget
  cases (h.fresh hids).symm.trans hget

/-- What a call leaves of the runs that there are already, however it goes on. -/
theorem Booked.accept_spec (h : f.Booked naming sources)
    (hids : Function.Injective naming.expression) (source : String) :
    (f.books.write f.ledger (f.entries (.accept source))).2 = none ∧
      (f.accept source).2.nextExpression = (sources ++ [source]).length ∧
      (f.accept source).2.ledger.records.map (fun r => (r.id, r.expression)) =
        naming.entitled (sources ++ [source]) ∧
      (∀ (r : RunId) (run : Run), f.runs[r]? = some run → ∃ record,
        (f.accept source).2.ledger.get? run.expression = some record ∧
          run.progress.Noted record) ∧
      ∀ id record, id ≠ f.freshExpression → (f.accept source).2.ledger.get? id = some record →
        (∃ (r : RunId) (run : Run), f.runs[r]? = some run ∧ run.expression = id) ∨
          record.Unread := by
  obtain ⟨ledger, -, hwrite, -, -, hothers, -⟩ := h.write_accept hids source
  have hledger : (f.accept source).2.ledger = ledger := by
    rw [(Farm.write_accept f source).1, h.books_eq, hwrite]
  have hcreated : (f.entries (.accept source)).filterMap Entry.creation? =
      [(naming.expression sources.length, source)] := by
    simp only [entries, freshExpression, h.naming_eq, h.counted]
    cases Expr.parse source with
    | ok arena => rfl
    | error cause => rfl
  rw [hledger]
  refine ⟨?_, ?_, ?_, ?_, ?_⟩
  · rw [h.books_eq, hwrite]
  · simp [(accept_counts f source).2.2, h.counted]
  · rw [(Ledger.sources_of_write (h.idsOnce hids) hwrite).2, h.entitled, hcreated,
      Naming.entitled_append]
  · intro r run hrun
    obtain ⟨old, hold, hnoted⟩ := h.noted r run hrun
    exact ⟨old, (hothers _ (h.unused hids hrun)).trans hold, hnoted⟩
  · intro id record hne hget
    exact h.attended id record ((hothers id hne).symm.trans hget)

/-- The record of a call, as it is when the call returns. -/
theorem Booked.record_accept (h : f.Booked naming sources)
    (hids : Function.Injective naming.expression) (source : String) :
    ∃ record, (f.accept source).2.ledger.get? f.freshExpression = some record ∧
      record.expression = source ∧
      match Expr.parse source with
      | .ok _ => record.status = .processing ∧ record.result = none
      | .error _ => record.status = .error ∧ record.result = none := by
  obtain ⟨ledger, record, hwrite, hget, hexpression, -, hstatus⟩ := h.write_accept hids source
  have hledger : (f.accept source).2.ledger = ledger := by
    rw [(Farm.write_accept f source).1, h.books_eq, hwrite]
  rw [hledger]
  exact ⟨record, hget, hexpression, hstatus⟩

theorem Booked.accept_unreadable (h : f.Booked naming sources)
    (hids : Function.Injective naming.expression) {source : String} {cause : Expr.CompileError}
    (hparse : Expr.parse source = .error cause) :
    (f.accept source).2.Booked naming (sources ++ [source]) := by
  obtain ⟨hwrite, hcounted, hentitled, hnoted, hattended⟩ := h.accept_spec hids source
  obtain ⟨record, hget, hexpression, hstatus⟩ := h.record_accept hids source
  obtain ⟨-, hruns, -⟩ := Farm.accept_unreadable hwrite hparse
  rw [hparse] at hstatus
  constructor
  · exact (accept_counts f source).1.trans h.naming_eq
  · exact (accept_counts f source).2.1.trans h.books_eq
  · exact hcounted
  · exact hentitled
  · rw [hruns]
    exact hnoted
  · rw [hruns]
    intro id found hfound
    by_cases he : id = f.freshExpression
    · obtain rfl : record = found := Option.some.inj (hget.symm.trans (he ▸ hfound))
      exact .inr ⟨hstatus.1, hstatus.2, cause, by rw [hexpression, hparse]⟩
    · exact hattended id found he hfound
  · rw [hruns]
    exact h.apart

theorem Booked.accept_readable (h : f.Booked naming sources)
    (hids : Function.Injective naming.expression) {source : String} {arena : Expr.Arena}
    (hparse : Expr.parse source = .ok arena) :
    (f.accept source).2.Booked naming (sources ++ [source]) := by
  obtain ⟨hwrite, hcounted, hentitled, hnoted, hattended⟩ := h.accept_spec hids source
  obtain ⟨record, hget, -, hstatus⟩ := h.record_accept hids source
  obtain ⟨-, begun, hfresh, hprogress, hruns⟩ := Farm.accept_readable hwrite hparse
  rw [hparse] at hstatus
  have hcases : ∀ {r : RunId} {run : Run}, (f.runs.push begun)[r]? = some run →
      (r = f.runs.size ∧ run = begun) ∨ f.runs[r]? = some run := by
    intro r run hrun
    rw [Array.getElem?_push] at hrun
    split at hrun
    · next he => exact .inl ⟨he, (Option.some.inj hrun).symm⟩
    · exact .inr hrun
  constructor
  · exact (accept_counts f source).1.trans h.naming_eq
  · exact (accept_counts f source).2.1.trans h.books_eq
  · exact hcounted
  · exact hentitled
  · rw [hruns]
    intro r run hrun
    rcases hcases hrun with ⟨-, rfl⟩ | hold
    · refine ⟨record, hfresh ▸ hget, ?_⟩
      rw [hprogress]
      exact hstatus
    · exact hnoted r run hold
  · rw [hruns]
    intro id found hfound
    by_cases he : id = f.freshExpression
    · exact .inl ⟨f.runs.size, begun, by simp, hfresh.trans he.symm⟩
    · rcases hattended id found he hfound with ⟨r, run, hrun, hid⟩ | hunread
      · obtain ⟨hlt, -⟩ := Array.getElem?_eq_some_iff.mp hrun
        refine .inl ⟨r, run, ?_, hid⟩
        rw [Array.getElem?_push, if_neg (Nat.ne_of_lt hlt), hrun]
      · exact .inr hunread
  · rw [hruns]
    intro r₁ r₂ run₁ run₂ hrun₁ hrun₂ hne
    rcases hcases hrun₁ with ⟨he₁, rfl⟩ | hold₁
    · rcases hcases hrun₂ with ⟨he₂, -⟩ | hold₂
      · exact absurd (he₁.trans he₂.symm) hne
      · exact hfresh ▸ (h.unused hids hold₂).symm
    · rcases hcases hrun₂ with ⟨-, rfl⟩ | hold₂
      · exact hfresh ▸ h.unused hids hold₁
      · exact h.apart _ _ _ _ hold₁ hold₂ hne

theorem Booked.accept (h : f.Booked naming sources)
    (hids : Function.Injective naming.expression) (source : String) :
    (f.accept source).2.Booked naming (sources ++ [source]) := by
  cases hparse : Expr.parse source with
  | ok arena => exact h.accept_readable hids hparse
  | error cause => exact h.accept_unreadable hids hparse

/-- When a walk is over, the record of its run is ended. -/
theorem Booked.conclude (h : f.Booked naming sources)
    (hids : Function.Injective naming.expression) (hrun : f.runs[r]? = some run)
    (hprogress : run.progress = .underWay) (outcome : Except EvalError Float) :
    (f.conclude r run outcome).Booked naming sources ∧
      (f.books.write f.ledger [.finished run.expression (ending outcome)]).2 = none := by
  obtain ⟨record, hget, hnoted⟩ := h.noted r run hrun
  rw [hprogress] at hnoted
  obtain ⟨ledger, hfinish, hended, hothers⟩ :=
    Ledger.finish_processing hget hnoted.1 (ending outcome)
  have hbooks : f.books.finish f.ledger run.expression (ending outcome) =
      .ok (record.finish (ending outcome), ledger) := by
    rw [h.books_eq]
    exact hfinish
  constructor
  · have hnotes : (Progress.ended (ofWalk outcome)).Noted (record.finish (ending outcome)) := by
      refine ⟨notes_finish record outcome, ?_⟩
      intro refusal
      cases outcome <;> nofun
    have hset := h.setRun hrun { run with progress := .ended (ofWalk outcome) } rfl
      (Ledger.finish_sources (h.idsOnce hids) hfinish) hothers hended hnotes
    refine hset.of_desk ?_
    simp only [Farm.conclude, releaseSession, hbooks]
    rfl
  · simp [Bookkeeper.write, Bookkeeper.post, hbooks, Except.map]

theorem Booked.walkStep (h : f.Booked naming sources)
    (hids : Function.Injective naming.expression) (hstep : f.walkStep? r = some f') :
    f'.Booked naming sources ∧ (f.books.write f.ledger (f.entries (.walk r))).2 = none := by
  obtain ⟨run, hrun, hprogress, ⟨hentries, hdesk⟩ | ⟨outcome, hentries, rfl⟩⟩ :=
    desk_walkStep? hstep
  · rw [hentries]
    refine ⟨?_, rfl⟩
    rcases hdesk with hdesk | ⟨walk, hdesk⟩
    · exact h.of_desk hdesk
    · obtain ⟨record, hget, hnoted⟩ := h.noted r run hrun
      exact (h.setRun hrun { run with walk } rfl rfl (fun _ _ => rfl) hget
        hnoted).of_desk hdesk
  · rw [hentries]
    exact h.conclude hids hrun hprogress outcome

theorem Booked.abandon (h : f.Booked naming sources) (r : RunId) :
    (f.abandon r).Booked naming sources := by
  rcases f.abandon_cases r with hsame | ⟨run, hrun, hprogress, habandon⟩
  · rwa [hsame]
  · obtain ⟨record, hget, hnoted⟩ := h.noted r run hrun
    rw [hprogress] at hnoted
    rw [habandon]
    exact (h.setRun hrun { run with progress := .abandoned } rfl rfl (fun _ _ => rfl)
      hget hnoted).of_desk rfl

/-- A move adds the source that it hands in, if any, and no entry of it is refused. -/
theorem Booked.move (h : f.Booked naming sources) (hids : Function.Injective naming.expression)
    (hmove : f.move? m = some f') :
    f'.Booked naming (sources ++ m.source?.toList) ∧
      Bookkeeper.regular.write f.ledger (f.entries m) = (f'.ledger, none) := by
  suffices hadmits : f'.Booked naming (sources ++ m.source?.toList) ∧
      (f.books.write f.ledger (f.entries m)).2 = none by
    refine ⟨hadmits.1, ?_⟩
    rw [ledger_move? hmove, ← hadmits.2, h.books_eq]
  cases m with
  | accept source =>
      rw [← Option.some.inj hmove]
      exact ⟨h.accept hids source, (h.accept_spec hids source).1⟩
  | abandon r =>
      rw [← Option.some.inj hmove]
      simpa [Move.source?] using ⟨h.abandon r, rfl⟩
  | walk r => simpa [Move.source?] using h.walkStep hids hmove
  | hire | dismiss | close | relay | work | quit | wait =>
      have hdesk := desk_move? hmove rfl
      simpa [Move.source?] using ⟨h.of_desk hdesk, rfl⟩

theorem Booked.play (h : f.Booked naming sources) (hids : Function.Injective naming.expression)
    {moves : List Move} (hplay : f.play? moves = some f') :
    f'.Booked naming (sources ++ moves.filterMap Move.source?) ∧
      Bookkeeper.regular.write f.ledger (f.chronicle moves) = (f'.ledger, none) := by
  induction moves generalizing f sources with
  | nil =>
      rw [← Option.some.inj hplay]
      simpa [chronicle, Bookkeeper.write] using h
  | cons m rest ih =>
      obtain ⟨next, hmove, hrest⟩ := Option.bind_eq_some_iff.mp hplay
      obtain ⟨hnext, hfirst⟩ := h.move hids hmove
      obtain ⟨hlast, hwrite⟩ := ih hnext hrest
      constructor
      · cases hsource : m.source? with
        | none => simpa [hsource] using hlast
        | some source => simpa [hsource] using hlast
      · simp only [chronicle, hmove, Option.map_some, Option.getD_some]
        rw [Bookkeeper.write_append hfirst, hwrite]

/-! ## Runs -/

theorem continues_setRun (hrun : f.runs[r]? = some run) (hprogress : run.progress = .underWay)
    (run' : Run) (hexpression : run'.expression = run.expression) {r' : RunId} {old : Run}
    (hold : f.runs[r']? = some old) :
    ∃ new, (f.setRun r run').runs[r']? = some new ∧ old.Continues new := by
  rw [setRun_getElem? hrun]
  by_cases he : r' = r
  · subst he
    obtain rfl := Option.some.inj (hrun.symm.trans hold)
    exact ⟨run', if_pos rfl, hexpression, fun hover => absurd hprogress hover⟩
  · exact ⟨old, by rw [if_neg he, hold], Run.Continues.refl old⟩

theorem runs_of_desk (h : f'.desk = f.desk) : f'.runs = f.runs :=
  congrArg (fun desk => desk.2.2.2.1) h

theorem continues_walkStep? {r' : RunId} {old : Run} (hstep : f.walkStep? r = some f')
    (hold : f.runs[r']? = some old) : ∃ new, f'.runs[r']? = some new ∧ old.Continues new := by
  obtain ⟨run, hrun, hprogress, ⟨-, hdesk | ⟨walk, hdesk⟩⟩ | ⟨outcome, -, rfl⟩⟩ :=
    desk_walkStep? hstep
  · rw [runs_of_desk hdesk]
    exact ⟨old, hold, Run.Continues.refl old⟩
  · rw [runs_of_desk (f := f.setWalk r run walk) hdesk]
    exact continues_setRun hrun hprogress { run with walk } rfl hold
  · simp only [conclude]
    split
    · exact continues_setRun (f := f) hrun hprogress { run with progress := .ended _ } rfl hold
    · exact continues_setRun (f := f) hrun hprogress { run with progress := .ended _ } rfl hold

theorem continues_move? {old : Run} (hmove : f.move? m = some f') (hold : f.runs[r]? = some old) :
    ∃ new, f'.runs[r]? = some new ∧ old.Continues new := by
  cases m with
  | accept source =>
      have hlt := (Array.getElem?_eq_some_iff.mp hold).1
      obtain ⟨result, haccept⟩ : ∃ result, f.accept source = (result, f') :=
        ⟨_, Prod.ext rfl (Option.some.inj hmove)⟩
      have hkept : f'.runs[r]? = some old := by
        cases accept_cases haccept with
        | begins => simp [beginRun, Array.getElem?_push, Nat.ne_of_lt hlt, hold]
        | refused | unfinished | rejects => exact hold
      exact ⟨old, hkept, Run.Continues.refl old⟩
  | abandon r' =>
      rw [← Option.some.inj hmove]
      rcases f.abandon_cases r' with hsame | ⟨run, hrun, hprogress, habandon⟩
      · rw [hsame]
        exact ⟨old, hold, Run.Continues.refl old⟩
      · rw [habandon]
        exact continues_setRun (f := f) hrun hprogress { run with progress := .abandoned } rfl hold
  | walk r' => exact continues_walkStep? hmove hold
  | hire | dismiss | close | relay | work | quit | wait =>
      rw [runs_of_desk (desk_move? hmove rfl)]
      exact ⟨old, hold, Run.Continues.refl old⟩

theorem continues_play? {moves : List Move} {old : Run} (hplay : f.play? moves = some f')
    (hold : f.runs[r]? = some old) : ∃ new, f'.runs[r]? = some new ∧ old.Continues new := by
  induction moves generalizing f old with
  | nil =>
      rw [← Option.some.inj hplay]
      exact ⟨old, hold, Run.Continues.refl old⟩
  | cons m rest ih =>
      obtain ⟨next, hmove, hrest⟩ := Option.bind_eq_some_iff.mp hplay
      obtain ⟨mid, hmid, hfirst⟩ := continues_move? hmove hold
      obtain ⟨new, hnew, hlast⟩ := ih hrest hmid
      exact ⟨new, hnew, hfirst.trans hlast⟩

/-! ## The law of records -/

/-- What the ledger says of the calls that handed in the given sources, after the given entries. -/
structure KeepsRecords (naming : Naming) (sources : List String) (entries : List Entry)
    (f : Farm) : Prop where
  /-- Each call has one record, which holds its source. -/
  entitled : f.ledger.records.map (fun r => (r.id, r.expression)) = naming.entitled sources
  idsOnce : (f.ledger.records.map Record.id).Nodup
  /-- Of all that the ledger was asked for nothing was refused. -/
  written : Bookkeeper.regular.write .empty entries = (f.ledger, none)
  endedOnce : (entries.filterMap Entry.finishes?).Nodup
  processing : ∀ id record, f.ledger.get? id = some record →
    (record.status = .processing ↔ id ∉ entries.filterMap Entry.finishes?)
  /-- Whatever happens later, a record that was ended does not change any more. -/
  lasting : ∀ later f', f.play? later = some f' → f.ledger.Follows f'.ledger ∧
    ∀ (r : RunId) (run : Run), f.runs[r]? = some run →
      ∃ run', f'.runs[r]? = some run' ∧ run.Continues run'
  /-- Each record is that of a run, or of a source that cannot be read. -/
  attended : ∀ id record, f.ledger.get? id = some record →
    (∃ (r : RunId) (run : Run), f.runs[r]? = some run ∧ run.expression = id) ∨ record.Unread
  /-- The caller of a run is told what the record says. -/
  told : ∀ (r : RunId) (run : Run), f.runs[r]? = some run →
    ∃ record, f.ledger.get? run.expression = some record ∧ record.Tells run.outcome?
  fresh : f.ledger.get? f.freshExpression = none
  readable : ∀ source arena, Expr.parse source = .ok arena →
    (f.accept source).1 = .ok f.runs.size ∧
      ∃ run record, (f.accept source).2.runs[f.runs.size]? = some run ∧
        run.expression = f.freshExpression ∧ run.progress = .underWay ∧
        (f.accept source).2.ledger.get? f.freshExpression = some record ∧
        record.expression = source ∧ record.status = .processing ∧ record.result = none
  /-- A source that cannot be read fails at once, and nothing of the exchange is touched. -/
  unreadable : ∀ source cause, Expr.parse source = .error cause →
    (f.accept source).1 = .error (.ofCompileError cause) ∧
      (f.accept source).2.exchange = f.exchange ∧ (f.accept source).2.runs = f.runs ∧
      ∃ record, (f.accept source).2.ledger.get? f.freshExpression = some record ∧
        record.expression = source ∧ record.Unread

theorem Booked.keepsRecords (h : f.Booked naming sources)
    (hids : Function.Injective naming.expression) {entries : List Entry}
    (hwritten : Bookkeeper.regular.write .empty entries = (f.ledger, none)) :
    f.KeepsRecords naming sources entries := by
  obtain ⟨hendedOnce, -, hprocessing⟩ := Ledger.finishes_of_write hwritten
  constructor
  · exact h.entitled
  · exact h.idsOnce hids
  · exact hwritten
  · exact hendedOnce
  · intro id record hget
    refine (hprocessing id record hget).trans ⟨And.left, fun hnew => ⟨hnew, ?_⟩⟩
    exact nofun
  · intro later f' hplay
    refine ⟨Ledger.follows_write (h.play hids hplay).2, ?_⟩
    exact fun r run hrun => continues_play? hplay hrun
  · exact h.attended
  · intro r run hrun
    obtain ⟨record, hget, hnoted⟩ := h.noted r run hrun
    exact ⟨record, hget, hnoted.tells⟩
  · exact h.fresh hids
  · intro source arena hparse
    obtain ⟨hadmitted, run, hexpression, hprogress, hruns⟩ :=
      Farm.accept_readable (h.accept_spec hids source).1 hparse
    obtain ⟨record, hget, hsource, hstatus⟩ := h.record_accept hids source
    rw [hparse] at hstatus
    exact ⟨hadmitted, run, record, by simp [hruns], hexpression, hprogress, hget, hsource,
      hstatus.1, hstatus.2⟩
  · intro source cause hparse
    obtain ⟨hfailed, hruns, hexchange⟩ :=
      Farm.accept_unreadable (h.accept_spec hids source).1 hparse
    obtain ⟨record, hget, hsource, hstatus⟩ := h.record_accept hids source
    rw [hparse] at hstatus
    exact ⟨hfailed, hexchange, hruns, record, hget, hsource, hstatus.1, hstatus.2, cause,
      by rw [hsource, hparse]⟩

/-- However the moves of callers, walks, relays, workers and the clock are mixed, and whenever the
exchange is closed, every call keeps one record and ends it once.  No two expressions may get the
same name. -/
theorem play?_keepsRecords (hids : Function.Injective naming.expression) {moves : List Move}
    (hplay : (openedWith naming settings .regular).play? moves = some f) :
    f.KeepsRecords naming (moves.filterMap Move.source?)
      ((openedWith naming settings .regular).chronicle moves) := by
  obtain ⟨hbooked, hwritten⟩ := (booked_opened naming settings).play hids hplay
  exact hbooked.keepsRecords hids hwritten

/-- The sum has been computed and the second source has failed when the exchange is closed under
the product. -/
theorem play?_keepsRecords_closed :
    ∃ moves f value, (openedWith .counting .standard .regular).play? moves = some f ∧
      moves.filterMap Move.source? = ["1+2", "1+", "4*5"] ∧
      f.outcome? 0 = some (.ok value) ∧
      f.outcome? 1 = some (.error (.evaluation (.resultChannelClosed ⟨2⟩))) ∧
      f.KeepsRecords .counting (moves.filterMap Move.source?)
        ((openedWith .counting .standard .regular).chronicle moves) := by
  refine ⟨[.accept "1+2", .hire, .walk 0, .walk 0, .relay 0, .relay 0, .work 0, .work 0, .wait 10,
    .work 0, .accept "1+", .walk 0, .walk 0, .walk 0, .accept "4*5", .walk 1, .walk 1, .close,
    .relay 1, .walk 1, .walk 1], ?f, ?value, ?played, rfl, ?first, ?last,
    play?_keepsRecords Naming.counting_expression ?played⟩
  case played => exact rfl
  case first => exact rfl
  case last => exact rfl

end Farm

end TaskFarm
