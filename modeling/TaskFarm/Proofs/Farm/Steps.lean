import TaskFarm.Farm.Move

/-!
# What the steps at a farm do

Each kind of step with what it needs and what it leaves, read off the functions once.
-/

namespace TaskFarm.Farm

variable {f f' : Farm} {r : RunId} {w : WorkerId}

/-- What a step of a run does. -/
inductive Walks (f : Farm) (r : RunId) (run : Run) : Farm → Prop
  | turns (hstage : run.walk.stage = .walking) :
      Walks f r run ({ f with nextTask := f.nextTask + 1 }.setWalk r run
        (run.plan.proceed (f.naming.task f.nextTask) run.walk))
  | sends {node : Nat} {task : Task} (hstage : run.walk.stage = .offering node task)
      {sending : Sending} {x : Exchange}
      (hsend : f.exchange.attemptSend? run.session r task = some (sending, x)) :
      Walks f r run ({ f with exchange := x }.afterSending r run sending)
  | receives {node : Nat} {id : TaskId} (hstage : run.walk.stage = .awaiting node id)
      {result : TaskResult} {x : Exchange}
      (hreceive : f.exchange.receive run.session = (.result result, x)) :
      Walks f r run ({ f with exchange := x }.setWalk r run (run.walk.received result))
  | hangsUp {node : Nat} {id : TaskId} (hstage : run.walk.stage = .awaiting node id)
      {x : Exchange} (hreceive : f.exchange.receive run.session = (.disconnected, x)) :
      Walks f r run (f.setWalk r run run.walk.hungUp)
  | concludes {outcome : Except EvalError Float} (hstage : run.walk.stage = .finished outcome) :
      Walks f r run (f.conclude r run outcome)

/-- What a step of a worker does. -/
inductive Works (f : Farm) (w : WorkerId) (worker : Worker) : Farm → Prop
  | looks (hready : worker.occupation = .ready) : Works f w worker (f.look w worker)
  | fetches (hfetching : worker.occupation = .fetching) {reply : Option FetchReply} {x : Exchange}
      (hfetch : f.exchange.fetchStep? w f.now = some (reply, x)) :
      Works f w worker (f.afterFetchStep w worker (reply, x))
  | submits {task : Task} {doneAt : Nat} (hcomputing : worker.occupation = .computing task doneAt)
      (hdone : doneAt ≤ f.now) : Works f w worker (f.submit w worker task)
  | resumes {id : TaskId} {s : SessionId} (hsubmitting : worker.occupation = .submitting id s)
      {submission : Submission} {x : Exchange}
      (hresume : f.exchange.resumeSubmit? s w id = some (submission, x)) :
      Works f w worker ({ f with exchange := x }.afterSubmission w worker id submission)
  | wakes {wakeAt : Nat} (hpausing : worker.occupation = .pausing wakeAt)
      (hawake : wakeAt ≤ f.now) : Works f w worker (f.setWorker w worker.resumed)

/-- What becomes of an expression that is taken in. -/
inductive Accepts (f : Farm) (source : String) : Except FarmError RunId → Farm → Prop
  | refused {refusal : LedgerError}
      (hcreate : f.books.create f.ledger (.processing f.freshExpression source) = .error refusal) :
      Accepts f source (.error (.ledger refusal)) { f with nextExpression := f.nextExpression + 1 }
  | begins {ledger : Ledger} {arena : Expr.Arena}
      (hcreate : f.books.create f.ledger (.processing f.freshExpression source) = .ok ledger)
      (hparse : Expr.parse source = .ok arena) :
      Accepts f source (.ok f.runs.size)
        ({ f with ledger, nextExpression := f.nextExpression + 1 }.beginRun f.freshExpression
          arena).2
  | unfinished {ledger : Ledger} {cause : Expr.CompileError} {refusal : LedgerError}
      (hcreate : f.books.create f.ledger (.processing f.freshExpression source) = .ok ledger)
      (hparse : Expr.parse source = .error cause)
      (hfinish : f.books.finish ledger f.freshExpression .failed = .error refusal) :
      Accepts f source (.error (.ledger refusal))
        { f with ledger, nextExpression := f.nextExpression + 1 }
  | rejects {ledger ended : Ledger} {cause : Expr.CompileError} {record : Record}
      (hcreate : f.books.create f.ledger (.processing f.freshExpression source) = .ok ledger)
      (hparse : Expr.parse source = .error cause)
      (hfinish : f.books.finish ledger f.freshExpression .failed = .ok (record, ended)) :
      Accepts f source (.error (.ofCompileError cause))
        { f with ledger := ended, nextExpression := f.nextExpression + 1 }

theorem progress_of_isUnderWay {run : Run} (h : run.isUnderWay = true) :
    run.progress = .underWay := by
  unfold Run.isUnderWay at h
  split at h
  · next hprogress => exact hprogress
  · cases h

theorem walkStep?_cases (h : f.walkStep? r = some f') :
    ∃ run, f.runs[r]? = some run ∧ run.progress = .underWay ∧ f.Walks r run f' := by
  obtain ⟨run, hrun, hstep⟩ := Option.bind_eq_some_iff.mp h
  split at hstep
  · next hunderWay =>
    refine ⟨run, hrun, progress_of_isUnderWay hunderWay, ?_⟩
    split at hstep
    · next hstage =>
      rw [← Option.some.inj hstep]
      exact .turns hstage
    · next hstage =>
      obtain ⟨⟨sending, x⟩, hsend, rfl⟩ := Option.map_eq_some_iff.mp hstep
      exact .sends hstage hsend
    · next hstage =>
      split at hstep
      · next hreceive =>
        rw [← Option.some.inj hstep]
        exact .receives hstage hreceive
      · next hreceive =>
        rw [← Option.some.inj hstep]
        exact .hangsUp hstage hreceive
      · cases hstep
    · next hstage =>
      rw [← Option.some.inj hstep]
      exact .concludes hstage
    · cases hstep
  · cases hstep

theorem workStep?_cases (h : f.workStep? w = some f') :
    ∃ worker, f.workers[w]? = some worker ∧ f.Works w worker f' := by
  obtain ⟨worker, hw, hstep⟩ := Option.bind_eq_some_iff.mp h
  refine ⟨worker, hw, ?_⟩
  split at hstep
  · next hready =>
    rw [← Option.some.inj hstep]
    exact .looks hready
  · next hfetching =>
    obtain ⟨⟨reply, x⟩, hfetch, rfl⟩ := Option.map_eq_some_iff.mp hstep
    exact .fetches hfetching hfetch
  · next hcomputing =>
    split at hstep
    · next hdone =>
      rw [← Option.some.inj hstep]
      exact .submits hcomputing hdone
    · cases hstep
  · next hsubmitting =>
    obtain ⟨⟨submission, x⟩, hresume, rfl⟩ := Option.map_eq_some_iff.mp hstep
    exact .resumes hsubmitting hresume
  · next hpausing =>
    split at hstep
    · next hawake =>
      rw [← Option.some.inj hstep]
      exact .wakes hpausing hawake
    · cases hstep
  · cases hstep
  · cases hstep

theorem quitStep?_cases (h : f.quitStep? w = some f') :
    ∃ worker, f.workers[w]? = some worker ∧ worker.dismissed = true ∧ worker.isIdle = true ∧
      f' = { f with exchange := f.exchange.leaveLine w }.setWorker w worker.stop := by
  obtain ⟨worker, hw, hstep⟩ := Option.bind_eq_some_iff.mp h
  split at hstep
  · next hquits =>
    obtain ⟨hdismissed, hidle⟩ := Bool.and_eq_true_iff.mp hquits
    exact ⟨worker, hw, hdismissed, hidle, (Option.some.inj hstep).symm⟩
  · cases hstep

theorem accept_cases {source : String} {result : Except FarmError RunId}
    (h : f.accept source = (result, f')) : f.Accepts source result f' := by
  unfold accept at h
  simp only at h
  split at h
  · next refusal hcreate =>
    cases h
    exact .refused hcreate
  · next ledger hcreate =>
    split at h
    · next arena hparse =>
      cases h
      exact .begins hcreate hparse
    · next cause hparse =>
      split at h
      · next refusal hfinish =>
        cases h
        exact .unfinished hcreate hparse hfinish
      · next record ended hfinish =>
        cases h
        exact .rejects hcreate hparse hfinish

/-- Taking an expression in has to do with the ledger, the runs and the sessions alone. -/
theorem accept_eq (f : Farm) (source : String) :
    ∃ ledger exchange runs, (f.accept source).2 =
      { f with ledger, exchange, runs, nextExpression := f.nextExpression + 1 } := by
  cases haccept : f.accept source with
  | mk result f' =>
      cases accept_cases haccept with
      | refused => exact ⟨_, _, _, rfl⟩
      | begins => exact ⟨_, _, _, rfl⟩
      | unfinished => exact ⟨_, _, _, rfl⟩
      | rejects => exact ⟨_, _, _, rfl⟩

/-- Only a run under way is given up. -/
theorem abandon_cases (f : Farm) (r : RunId) :
    f.abandon r = f ∨ ∃ run, f.runs[r]? = some run ∧ run.progress = .underWay ∧
      f.abandon r =
        (({ f with exchange := f.exchange.withdrawSend run.session r } : Farm).releaseSession
          run.session).setRun r { run with progress := .abandoned } := by
  unfold abandon
  split
  · exact .inl rfl
  · next run hrun =>
    split
    · next hunderWay => exact .inr ⟨run, hrun, progress_of_isUnderWay hunderWay, rfl⟩
    · exact .inl rfl

theorem wait_cases {moment : Nat} (h : f.move? (.wait moment) = some f') :
    f.now < moment ∧ f' = { f with now := moment } := by
  simp only [move?] at h
  split at h
  · next hlater => exact ⟨hlater, (Option.some.inj h).symm⟩
  · cases h

end TaskFarm.Farm
