import TaskFarm.Proofs.Farm.Custody
import TaskFarm.Proofs.Farm.Deals
import TaskFarm.Proofs.Farm.Entries
import TaskFarm.Proofs.Walk.Visits

/-!
# Every move hands the tasks over

Each move of a farm takes at most one task to its next place, and whoever has it next is known.  So
custody lasts as long as the farm does.
-/

namespace TaskFarm

/-- A walk that stands still after some visits has at most made a task of the given id. -/
def Stage.Makes (fresh : TaskId) : Stage → Prop
  | .offering _ task => task.id = fresh
  | .awaiting _ _ => False
  | .walking | .finished _ | .stuck => True

theorem makes_visit (p : Plan) (fresh : TaskId) {w : Walk} (hstage : w.stage = .walking) :
    (p.visit fresh w).stage.Makes fresh := by
  unfold Plan.visit
  split
  · split
    · trivial
    · trivial
  · split
    · trivial
    · simp [hstage, Stage.Makes]
    · split
      · simp [hstage, Stage.Makes]
      · split
        · split
          · trivial
          · simp [hstage, Stage.Makes]
        · split
          · exact rfl
          · trivial

theorem makes_proceed (p : Plan) (fresh : TaskId) {w : Walk} (hstage : w.stage = .walking) :
    (p.proceed fresh w).stage.Makes fresh :=
  Plan.proceed_induction (P := fun w => w.stage.Makes fresh)
    (fun _ hwalking _ => makes_visit p fresh hwalking) (by simp [hstage, Stage.Makes])

namespace Farm

variable {f f' : Farm} {parcels : SessionId → Option Parcel} {r : RunId} {run : Run}
  {s : SessionId} {w : WorkerId} {worker worker' : Worker} {x : Exchange}

/-! ## Walks -/

/-- The walk of a run goes on, and something becomes of its own task. -/
theorem Custody.setWalk (h : f.Custody parcels) (hrun : f.runs[r]? = some run)
    (hprogress : run.progress = .underWay) {walk : Walk} {parcels' : SessionId → Option Parcel}
    (htracked : x.Tracked f.Wants parcels') (hqueue : x.queue.buffer = f.exchange.queue.buffer)
    (haway : ∀ s id, parcels' s = some ⟨id, .away⟩ ↔ parcels s = some ⟨id, .away⟩)
    (hothers : ∀ s, s ≠ run.session → parcels' s = parcels s)
    (hids : ∀ p, parcels' run.session = some p → f.Issued p.id ∧ ¬f.OffersElsewhere r p.id)
    (hfits : walk.stage.Fits parcels' f.Issued run.session)
    (hoffers : ∀ node task, walk.stage = .offering node task → ¬f.OffersElsewhere r task.id) :
    (({ f with exchange := x } : Farm).setWalk r run walk).Custody parcels' := by
  have hwanted : ∀ s, (f.setRun r { run with walk }).Wants s → f.Wants s :=
    fun s => wants_setRun hrun hprogress rfl
  exact h.setRun hrun hprogress rfl
    (h.toHolds.carry (htracked.mono hwanted) hqueue rfl haway) hothers hids (fun _ => hfits)
    fun _ => hoffers

/-- A walk goes on and makes at most one task, whose name is new. -/
theorem Custody.turn (h : f.Custody parcels) (hids : Function.Injective f.naming.task)
    (hrun : f.runs[r]? = some run) (hprogress : run.progress = .underWay)
    (hstage : run.walk.stage = .walking) :
    (({ f with nextTask := f.nextTask + 1 } : Farm).setWalk r run
      (run.plan.proceed (f.naming.task f.nextTask) run.walk)).Custody parcels := by
  have hold : ∀ id, f.Issued id → id ≠ f.naming.task f.nextTask := by
    rintro id ⟨k, hk, rfl⟩ he
    exact absurd (hids he) (Nat.ne_of_lt hk)
  have hcounted : ({ f with nextTask := f.nextTask + 1 } : Farm).Custody parcels := by
    refine h.carry (h.toHolds.carry h.tracked rfl rfl fun _ _ => Iff.rfl) (Onward.refl _ _) rfl ?_
    rintro id ⟨k, hk, hid⟩
    exact ⟨k, Nat.lt_succ_of_lt hk, hid⟩
  have hnone : parcels run.session = none := by
    have hfits := h.fits r run hrun hprogress
    rwa [hstage] at hfits
  have hmakes := makes_proceed run.plan (f.naming.task f.nextTask) hstage
  refine hcounted.setWalk hrun hprogress (x := f.exchange) h.tracked rfl (fun _ _ => Iff.rfl)
    (fun _ _ => rfl) ?_ ?_ ?_
  · intro p hp
    cases hnone.symm.trans hp
  · cases hnext : (run.plan.proceed (f.naming.task f.nextTask) run.walk).stage with
    | walking => exact hnone
    | offering node task =>
        rw [hnext] at hmakes
        have hid : task.id = f.naming.task f.nextTask := hmakes
        refine ⟨hnone, ⟨f.nextTask, Nat.lt_succ_self _, hid⟩, fun s p hp => ?_⟩
        rw [hid]
        exact hold p.id (h.issued s p hp)
    | awaiting node id =>
        rw [hnext] at hmakes
        exact hmakes.elim
    | finished outcome => trivial
    | stuck => trivial
  · intro node task hnext
    rw [hnext] at hmakes
    have hid : task.id = f.naming.task f.nextTask := hmakes
    rintro ⟨r', run', node', task', -, hrun', hprogress', hstage', hsame⟩
    have hfits := h.fits r' run' hrun' hprogress'
    rw [hstage'] at hfits
    exact hold task'.id hfits.2.1 (hsame.trans hid)

/-- A walk that offers a task has it in its session's channel, or learns that nobody takes it. -/
theorem Custody.afterSending (h : f.Custody parcels) (hrun : f.runs[r]? = some run)
    (hprogress : run.progress = .underWay) {node : Nat} {task : Task}
    (hstage : run.walk.stage = .offering node task) {sending : Sending}
    (hsend : f.exchange.attemptSend? run.session r task = some (sending, x)) :
    ∃ parcels',
      (({ f with exchange := x } : Farm).afterSending r run sending).Custody parcels' := by
  have hfits := h.fits r run hrun hprogress
  rw [hstage] at hfits
  obtain ⟨hnone, hissued, hunsent⟩ := hfits
  obtain ⟨hqueue, ⟨rfl, htracked⟩ | ⟨rfl, htracked⟩⟩ :=
    h.tracked.attemptSend? hnone hunsent hsend
  · refine ⟨parcels, h.setWalk hrun hprogress htracked (congrArg _ hqueue) (fun _ _ => Iff.rfl)
      (fun _ _ => rfl) ?_ ?_ ?_⟩
    · intro p hp
      cases hnone.symm.trans hp
    · simp [Walk.refused, hstage, Stage.Fits]
    · simp [Walk.refused, hstage]
  · refine ⟨_, h.setWalk hrun hprogress htracked (congrArg _ hqueue)
      (away_update (by simp [hnone]) (by simp)) (fun s hne => Function.update_of_ne hne _ _)
      ?_ ?_ ?_⟩
    · intro p hp
      rw [Function.update_self] at hp
      obtain rfl := Option.some.inj hp
      exact ⟨hissued, h.offeredOnce r run node task hrun hprogress hstage⟩
    · simp [Walk.accepted, hstage, Stage.Fits]
    · simp [Walk.accepted, hstage]

/-- A walk receives the result that it awaits. -/
theorem Custody.received (h : f.Custody parcels) (hrun : f.runs[r]? = some run)
    (hprogress : run.progress = .underWay) {node : Nat} {id : TaskId}
    (hstage : run.walk.stage = .awaiting node id) {result : TaskResult}
    (hreceive : f.exchange.receive run.session = (.result result, x)) :
    ∃ parcels', (({ f with exchange := x } : Farm).setWalk r run
      (run.walk.received result)).Custody parcels' := by
  have hfits := h.fits r run hrun hprogress
  rw [hstage] at hfits
  obtain ⟨place, hp⟩ := hfits
  obtain ⟨hanswered, hqueue, htracked⟩ := h.tracked.receive hreceive
  have hid : result.id = id := (Parcel.mk.inj (Option.some.inj (hanswered.symm.trans hp))).1
  refine ⟨_, h.setWalk hrun hprogress htracked (congrArg _ hqueue)
    (away_update (by simp [hanswered]) nofun) (fun s hne => Function.update_of_ne hne _ _)
    ?_ ?_ ?_⟩
  · intro p hp
    rw [Function.update_self] at hp
    cases hp
  · unfold Walk.received
    simp only [hstage, hid, if_true]
    cases result.outcome with
    | ok value => exact Function.update_self _ _ _
    | error cause => trivial
  · intro node' task' hnext
    unfold Walk.received at hnext
    simp only [hstage, hid, if_true] at hnext
    cases hout : result.outcome with
    | ok value => simp [hout] at hnext
    | error cause => simp [hout] at hnext

theorem Custody.hungUp (h : f.Custody parcels) (hrun : f.runs[r]? = some run)
    (hprogress : run.progress = .underWay) {node : Nat} {id : TaskId}
    (hstage : run.walk.stage = .awaiting node id) :
    (f.setWalk r run run.walk.hungUp).Custody parcels := by
  refine h.setWalk hrun hprogress (x := f.exchange) h.tracked rfl (fun _ _ => Iff.rfl)
    (fun _ _ => rfl) ?_ ?_ ?_
  · exact fun p hp => ⟨h.issued _ p hp, h.not_offersElsewhere hp r⟩
  · simp [Walk.hungUp, hstage, Stage.Fits]
  · simp [Walk.hungUp, hstage]

/-- A run ends, and a result that has come to its session is lost. -/
theorem Custody.endRun (h : f.Custody parcels) (hrun : f.runs[r]? = some run)
    (hprogress : run.progress = .underWay) (progress : Progress) (hends : progress ≠ .underWay)
    (htracked : x.Tracked f.Wants parcels)
    (hqueue : x.queue.buffer = f.exchange.queue.buffer) :
    ∃ parcels', (({ f with exchange := x } : Farm).releaseSession run.session
      |>.setRun r { run with progress }).Custody parcels' := by
  have hunwanted : ¬(f.setRun r { run with progress }).Wants run.session := by
    rintro ⟨r', found, hfound, hunderWay, hsession⟩
    rcases setRun_cases hrun hfound with ⟨-, rfl⟩ | ⟨hne, hold⟩
    · exact hends hunderWay
    · exact hne (h.sessionOnce r' r found run hold hrun hunderWay hprogress hsession)
  have hwanted : ∀ s, (f.setRun r { run with progress }).Wants s → f.Wants s :=
    fun s => wants_setRun hrun hprogress rfl
  obtain ⟨p?, hdropped, hp?⟩ :=
    ((htracked.mono hwanted).dropTasks run.session).dropResults hunwanted
  have hkept : ((x.dropTasks run.session).dropResults run.session).queue.buffer =
      f.exchange.queue.buffer := by
    rw [Exchange.queue_dropResults, Exchange.queue_dropTasks, hqueue]
  have haway : ∀ s id, Function.update parcels run.session p? s = some ⟨id, .away⟩ ↔
      parcels s = some ⟨id, .away⟩ := by
    rcases hp? with rfl | ⟨rfl, id, hp⟩
    · simp
    · exact away_update (by simp [hp]) nofun
  refine ⟨_, h.setRun hrun hprogress rfl (h.toHolds.carry hdropped hkept rfl haway)
    (fun s hne => Function.update_of_ne hne _ _) ?_ (fun hp => (hends hp).elim)
    fun hp => (hends hp).elim⟩
  intro p hp
  rw [Function.update_self] at hp
  rcases hp? with rfl | ⟨rfl, -⟩
  · exact ⟨h.issued _ p hp, h.not_offersElsewhere hp r⟩
  · cases hp

theorem Custody.conclude (h : f.Custody parcels) (hrun : f.runs[r]? = some run)
    (hprogress : run.progress = .underWay) (outcome : Except EvalError Float) :
    ∃ parcels', (f.conclude r run outcome).Custody parcels' := by
  unfold Farm.conclude
  simp only
  split
  · obtain ⟨parcels', hended⟩ :=
      h.endRun hrun hprogress (.ended (ofWalk outcome)) nofun h.tracked rfl
    exact ⟨parcels', hended.of_floor rfl⟩
  · next refusal _ =>
    exact h.endRun hrun hprogress (.ended (.error (.ledger refusal))) nofun h.tracked rfl

theorem Custody.abandon (h : f.Custody parcels) (r : RunId) :
    ∃ parcels', (f.abandon r).Custody parcels' := by
  rcases f.abandon_cases r with hsame | ⟨run, hrun, hprogress, habandon⟩
  · exact ⟨parcels, hsame.symm ▸ h⟩
  · rw [habandon]
    exact h.endRun hrun hprogress .abandoned nofun (h.tracked.withdrawSend run.session r)
      (by rw [Exchange.queue_withdrawSend])

theorem Custody.walkStep (h : f.Custody parcels) (hids : Function.Injective f.naming.task)
    (hstep : f.walkStep? r = some f') : ∃ parcels', f'.Custody parcels' := by
  obtain ⟨run, hrun, hprogress, hwalks⟩ := walkStep?_cases hstep
  cases hwalks with
  | turns hstage => exact ⟨parcels, h.turn hids hrun hprogress hstage⟩
  | sends hstage hsend => exact h.afterSending hrun hprogress hstage hsend
  | receives hstage hreceive => exact h.received hrun hprogress hstage hreceive
  | hangsUp hstage => exact ⟨parcels, h.hungUp hrun hprogress hstage⟩
  | concludes => exact h.conclude hrun hprogress _

/-! ## Relays -/

/-- Tasks move on at the exchange, but not into the queue or out of it. -/
theorem Custody.setExchange (h : f.Custody parcels) {parcels' : SessionId → Option Parcel}
    (htracked : x.Tracked f.Wants parcels') (hqueue : x.queue.buffer = f.exchange.queue.buffer)
    (haway : ∀ s id, parcels' s = some ⟨id, .away⟩ ↔ parcels s = some ⟨id, .away⟩)
    (honward : Onward f.Wants parcels parcels') :
    ({ f with exchange := x } : Farm).Custody parcels' :=
  h.carry (h.toHolds.carry htracked hqueue rfl haway) honward rfl fun _ => id

theorem Custody.sameTasks (h : f.Custody parcels) (htracked : x.Tracked f.Wants parcels)
    (hqueue : x.queue.buffer = f.exchange.queue.buffer) :
    ({ f with exchange := x } : Farm).Custody parcels :=
  h.setExchange htracked hqueue (fun _ _ => Iff.rfl) (Onward.refl _ _)

theorem Custody.relayStep (h : f.Custody parcels) (hinStep : f.exchange.InStep)
    (hstep : f.relayStep? s = some f') : ∃ parcels', f'.Custody parcels' := by
  obtain ⟨x, hx, rfl⟩ := Option.map_eq_some_iff.mp hstep
  obtain ⟨capacity, j, hmatches⟩ := hinStep
  obtain ⟨parcels', hforwards, htracked⟩ := h.tracked.relayStep? hmatches hx
  refine ⟨parcels', ?_⟩
  cases hforwards with
  | rests hqueue =>
      exact h.sameTasks htracked hqueue
  | takes hp hqueue =>
      exact h.setExchange htracked hqueue (away_update (by simp [hp]) (by simp))
        (onward_update hp (.inl ⟨_, rfl⟩))
  | loses hp hqueue =>
      obtain ⟨place, hp, hplace⟩ : ∃ place, parcels s = some ⟨_, place⟩ ∧ place ≠ .away := by
        rcases hp with hp | hp
        · exact ⟨_, hp, nofun⟩
        · exact ⟨_, hp, nofun⟩
      exact h.setExchange htracked hqueue (away_update (by simp [hp, hplace]) (by simp))
        (onward_update hp (.inl ⟨_, rfl⟩))
  | puts hp hqueue =>
      exact h.carry (h.toHolds.puts hp htracked hqueue) (onward_update hp (.inl ⟨_, rfl⟩)) rfl
        fun _ => id

/-! ## Workers -/

theorem Custody.setWorker (h : f.Custody parcels) (hw : f.workers[w]? = some worker)
    (hbefore : worker.occupation.task? = none) (hafter : worker'.occupation.task? = none) :
    (f.setWorker w worker').Custody parcels :=
  h.carry (h.toHolds.setWorker hw hbefore hafter) (Onward.refl _ _) rfl fun _ => id

/-- Who is in line does not matter. -/
theorem Custody.setLine (h : f.Custody parcels) (line : List PendingFetch) :
    ({ f with exchange := { f.exchange with line } } : Farm).Custody parcels :=
  h.sameTasks (h.tracked.congr rfl rfl) rfl

theorem Custody.look (h : f.Custody parcels) (hw : f.workers[w]? = some worker)
    (hready : worker.occupation = .ready) : (f.look w worker).Custody parcels := by
  have hlooked : (f.setWorker w worker.look).Custody parcels := by
    refine h.setWorker hw (by rw [hready]; rfl) ?_
    unfold Worker.look
    split
    · rfl
    · rfl
  unfold Farm.look
  simp only
  split
  · exact hlooked
  · exact hlooked.setLine _

theorem Custody.afterFetchStep (h : f.Custody parcels) (hw : f.workers[w]? = some worker)
    (hfetching : worker.occupation = .fetching) {reply : Option FetchReply}
    (hfetches : Exchange.Fetches f.exchange reply x) :
    (f.afterFetchStep w worker (reply, x)).Custody parcels := by
  have htracked := h.tracked.congr hfetches.routes_eq hfetches.sessions_eq
  have hbefore : worker.occupation.task? = none := by
    rw [hfetching]
    rfl
  -- without a task, the queue stays as it is
  have hidle : (∀ task, reply ≠ some (.task task)) →
      ({ f with exchange := x } : Farm).Custody parcels := by
    intro hnone
    obtain ⟨task, htask, -⟩ | ⟨-, hbuffer⟩ := hfetches.took
    · exact absurd htask (hnone task)
    · exact h.sameTasks htracked hbuffer
  unfold Farm.afterFetchStep
  split
  · next he =>
    cases he
    exact hidle nofun
  · next task x' he =>
    cases he
    obtain ⟨task', htask', hbuffer⟩ | ⟨hnone, -⟩ := hfetches.took
    · obtain rfl : task = task' := by simpa using htask'
      exact h.carry (h.toHolds.fetches hw hbefore rfl htracked hbuffer) (Onward.refl _ _) rfl
        fun _ => id
    · exact absurd rfl (hnone task)
  · next reply' x' hreply he =>
    cases he
    exact (hidle fun task htask => hreply task (Option.some.inj htask)).setWorker hw hbefore rfl

theorem Custody.submit (h : f.Custody parcels) (hw : f.workers[w]? = some worker) {task : Task}
    {doneAt : Nat} (hcomputing : worker.occupation = .computing task doneAt) :
    ∃ parcels', (f.submit w worker task).Custody parcels' := by
  have hbefore : worker.occupation.task? = some task.id := by
    rw [hcomputing]
    rfl
  obtain ⟨s, hp⟩ := (h.kept task.id).mpr ⟨.worker w, (keeps_iff hw).mpr hbefore⟩
  have hid : task.result.id = task.id := by
    unfold Task.result TaskResult.ofOutcome
    split
    · rfl
    · rfl
  unfold Farm.submit
  obtain ⟨answer, x, hsubmit⟩ : ∃ answer x, f.exchange.submit w task.result = (answer, x) :=
    ⟨_, _, rfl⟩
  rw [hsubmit]
  obtain ⟨hqueue, ⟨⟨error, rfl⟩, hunwanted, htracked⟩ | ⟨rfl, htracked⟩⟩ :=
    h.tracked.submit (hid.symm ▸ hp) hsubmit
  · exact ⟨_, h.carry (h.toHolds.submits hw hbefore rfl hp (by simp) htracked hqueue)
      (onward_update hp (.inr ⟨rfl, hunwanted⟩)) rfl fun _ => id⟩
  · rw [hid] at htracked
    exact ⟨_, h.carry (h.toHolds.submits hw hbefore rfl hp (by simp) htracked hqueue)
      (onward_update hp (.inl ⟨_, rfl⟩)) rfl fun _ => id⟩

theorem Custody.workStep (h : f.Custody parcels) (hstep : f.workStep? w = some f') :
    ∃ parcels', f'.Custody parcels' := by
  obtain ⟨worker, hw, hworks⟩ := workStep?_cases hstep
  cases hworks with
  | looks hready => exact ⟨parcels, h.look hw hready⟩
  | fetches hfetching hfetch =>
      exact ⟨parcels, h.afterFetchStep hw hfetching (Exchange.fetches_of_fetchStep? hfetch)⟩
  | submits hcomputing => exact h.submit hw hcomputing
  | @resumes id s hsubmitting =>
      exact absurd hsubmitting (h.unhurried worker (Array.mem_of_getElem? hw) id s)
  | wakes hpausing => exact ⟨parcels, h.setWorker hw (by rw [hpausing]; rfl) rfl⟩

theorem Custody.quitStep (h : f.Custody parcels) (hstep : f.quitStep? w = some f') :
    f'.Custody parcels := by
  obtain ⟨worker, hw, -, hquits, rfl⟩ := quitStep?_cases hstep
  have hidle : worker.occupation.task? = none := by
    unfold Worker.isIdle at hquits
    unfold Occupation.task?
    split at hquits <;> simp_all
  exact (h.setLine _).setWorker hw hidle rfl

theorem Custody.hire (h : f.Custody parcels) : f.hire.Custody parcels := by
  refine h.carry (h.toHolds.setWorkers (fun w id => ?_) ?_) (Onward.refl _ _) rfl fun _ => id
  · simp only [Keeps, Array.getElem?_append]
    split
    · rfl
    · next hge =>
      rw [Array.getElem?_eq_none (Nat.le_of_not_lt hge), Array.getElem?_replicate]
      split
      · simp [Worker.hired, Occupation.task?]
      · rfl
  · intro worker hworker id s hsubmitting
    rcases mem_hire hworker with hold | rfl
    · exact h.unhurried worker hold id s hsubmitting
    · cases hsubmitting

/-- A worker that is to stop keeps the task that it has. -/
theorem Custody.dismiss (h : f.Custody parcels) (w : WorkerId) :
    (f.dismiss w).Custody parcels := by
  refine h.carry (h.toHolds.setWorkers (fun w' id => ?_) ?_) (Onward.refl _ _) rfl fun _ => id
  · simp only [Keeps, Array.getElem?_modify]
    split
    · cases f.workers[w']? with
      | none => rfl
      | some worker => rfl
    · rfl
  · intro worker hworker id s hsubmitting
    obtain ⟨old, hold, hsame⟩ := mem_dismiss hworker
    exact h.unhurried old hold id s (hsame.symm.trans hsubmitting)

/-! ## Expressions and the exchange -/

theorem Custody.beginRun (h : f.Custody parcels) (id : ExpressionId) (arena : Expr.Arena) :
    (f.beginRun id arena).2.Custody parcels := by
  have hwanted : ∀ s, (f.beginRun id arena).2.Wants s →
      f.Wants s ∨ s = f.exchange.sessions.size := by
    rintro s ⟨r, found, hfound, hprogress, rfl⟩
    rcases beginRun_cases hfound with ⟨-, rfl⟩ | hold
    · exact .inr rfl
    · exact .inl ⟨r, found, hold, hprogress, rfl⟩
  have hserved : ∀ {r : RunId} {found : Run}, f.runs[r]? = some found →
      found.progress = .underWay → found.session ≠ f.exchange.sessions.size :=
    fun hfound hprogress => Nat.ne_of_lt (h.tracked.served _ ⟨_, _, hfound, hprogress, rfl⟩)
  have hoffers : ∀ {r : RunId} {found : Run} {node : Nat} {task : Task},
      (f.beginRun id arena).2.runs[r]? = some found →
      found.walk.stage = .offering node task → f.runs[r]? = some found := by
    intro r found node task hfound hstage
    rcases beginRun_cases hfound with ⟨-, rfl⟩ | hold
    · cases hstage
    · exact hold
  constructor
  · exact h.toHolds.carry (h.tracked.openSession hwanted) rfl rfl fun _ _ => Iff.rfl
  · exact h.issued
  · intro r found hfound hprogress
    rcases beginRun_cases hfound with ⟨-, rfl⟩ | hold
    · change parcels f.exchange.sessions.size = none
      cases hp : parcels f.exchange.sessions.size with
      | none => rfl
      | some p => exact absurd (h.tracked.within _ p hp) (Nat.lt_irrefl _)
    · exact h.fits r found hold hprogress
  · rintro r found node task hfound hprogress hstage
      ⟨r', found', node', task', hne, hfound', hprogress', hstage', hid⟩
    exact h.offeredOnce r found node task (hoffers hfound hstage) hprogress hstage
      ⟨r', found', node', task', hne, hoffers hfound' hstage', hprogress', hstage', hid⟩
  · intro r r' found found' hfound hfound' hprogress hprogress' hsame
    rcases beginRun_cases hfound with ⟨he, rfl⟩ | hold
    · rcases beginRun_cases hfound' with ⟨he', -⟩ | hold'
      · exact he.trans he'.symm
      · exact absurd hsame.symm (hserved hold' hprogress')
    · rcases beginRun_cases hfound' with ⟨-, rfl⟩ | hold'
      · exact absurd hsame (hserved hold hprogress)
      · exact h.sessionOnce r r' found found' hold hold' hprogress hprogress' hsame

theorem Custody.accept (h : f.Custody parcels) (source : String) :
    (f.accept source).2.Custody parcels := by
  cases haccept : f.accept source with
  | mk result f' =>
      cases accept_cases haccept with
      | @begins ledger _ _ _ =>
          have hcreated :
              ({ f with ledger, nextExpression := f.nextExpression + 1 } : Farm).Custody parcels :=
            h.of_floor rfl
          exact hcreated.beginRun _ _
      | refused | unfinished | rejects => exact h.of_floor rfl

theorem Custody.close (h : f.Custody parcels) :
    ({ f with exchange := f.exchange.close } : Farm).Custody parcels := by
  have hclose : f.exchange.close.routes = f.exchange.routes ∧
      f.exchange.close.sessions = f.exchange.sessions ∧
      f.exchange.close.queue.buffer = f.exchange.queue.buffer := by
    unfold Exchange.close
    simp only
    split
    · obtain ⟨queue, heq, hbuffer, -⟩ :=
        Exchange.closeQueueIfClosed_eq { f.exchange with closed := true }
      rw [heq]
      exact ⟨rfl, rfl, hbuffer⟩
    · exact ⟨rfl, rfl, rfl⟩
  obtain ⟨hroutes, hsessions, hqueue⟩ := hclose
  exact h.sameTasks (h.tracked.congr hroutes hsessions) hqueue

/-! ## Moves -/

/-- The names are given in the same order all the time. -/
theorem naming_move? {m : Move} (hmove : f.move? m = some f') : f'.naming = f.naming := by
  cases m with
  | accept source =>
      rw [← Option.some.inj hmove, Farm.accept]
      simp only
      split
      · rfl
      · split
        · rfl
        · split
          · rfl
          · rfl
  | abandon r =>
      rw [← Option.some.inj hmove]
      rcases f.abandon_cases r with hsame | ⟨run, -, -, habandon⟩
      · rw [hsame]
      · rw [habandon]
        rfl
  | walk r =>
      obtain ⟨run, -, -, ⟨-, hdesk | ⟨walk, hdesk⟩⟩ | ⟨outcome, -, rfl⟩⟩ := desk_walkStep? hmove
      · exact congrArg Prod.fst hdesk
      · exact congrArg Prod.fst hdesk
      · unfold Farm.conclude
        simp only
        split
        · rfl
        · rfl
  | hire | dismiss | close | relay | work | quit | wait =>
      exact congrArg Prod.fst (desk_move? hmove rfl)

theorem Custody.move (h : f.Custody parcels) (hids : Function.Injective f.naming.task)
    (hinStep : f.exchange.InStep) {m : Move} (hmove : f.move? m = some f') :
    ∃ parcels', f'.Custody parcels' := by
  cases m with
  | accept source =>
      rw [← Option.some.inj hmove]
      exact ⟨parcels, h.accept source⟩
  | abandon r =>
      rw [← Option.some.inj hmove]
      exact h.abandon r
  | hire =>
      rw [← Option.some.inj hmove]
      exact ⟨parcels, h.hire⟩
  | dismiss w =>
      rw [← Option.some.inj hmove]
      exact ⟨parcels, h.dismiss w⟩
  | close =>
      rw [← Option.some.inj hmove]
      exact ⟨parcels, h.close⟩
  | walk r => exact h.walkStep hids hmove
  | relay s => exact h.relayStep hinStep hmove
  | work w => exact h.workStep hmove
  | quit w => exact ⟨parcels, h.quitStep hmove⟩
  | wait moment =>
      obtain ⟨-, rfl⟩ := wait_cases hmove
      exact ⟨parcels, h.of_floor rfl⟩

theorem Custody.play (h : f.Custody parcels) (hids : Function.Injective f.naming.task)
    (hinStep : f.exchange.InStep) {moves : List Move} (hplay : f.play? moves = some f') :
    ∃ parcels', f'.Custody parcels' := by
  induction moves generalizing f parcels with
  | nil =>
      rw [← Option.some.inj hplay]
      exact ⟨parcels, h⟩
  | cons m rest ih =>
      obtain ⟨next, hmove, hrest⟩ := Option.bind_eq_some_iff.mp hplay
      obtain ⟨parcels₁, hnext⟩ := h.move hids hinStep hmove
      rw [← naming_move? hmove] at hids
      exact ih hnext hids (kept_move? Exchange.lasting_inStep hinStep hmove) hrest

end Farm

end TaskFarm
