import TaskFarm.Farm.Evaluation
import TaskFarm.Proofs.Exchange.Trip
import TaskFarm.Proofs.Farm.Handover
import TaskFarm.Proofs.Walk.Effort

/-!
# Errands come to their end

A farm is at rest if nothing is at its exchange and its first worker is ready.  An errand of such a
farm always finds its next move: the task of its walk goes its trip, and what is left of the effort
of the tree gets less.  So the run ends before the errand runs out of patience, and the farm is at
rest again.
-/

namespace TaskFarm

open TaskFarm.Expr (Arena OpTree)

/-- The moves that errands consist of. -/
def Move.isErrand : Move → Bool
  | .walk _ | .relay _ | .work _ | .wait _ => true
  | _ => false

namespace Farm

variable {f f' : Farm} {r : RunId} {run : Run} {moment : Nat}

/-! ## The next move of an errand -/

/-- An errand goes on with a move. -/
def GoesOn (f : Farm) (r : RunId) (f' : Farm) : Prop :=
  ∃ m, f.move? m = some f' ∧ m.isErrand = true ∧ errandStep? r f = some f'

theorem goesOn_walk (hrun : f.runs[r]? = some run) (hprogress : run.progress = .underWay)
    (hwalk : f.walkStep? r = some f') : f.GoesOn r f' :=
  ⟨.walk r, hwalk, rfl, by
    simp [errandStep?, hrun, Run.isUnderWay, hprogress, firstMove?, move?, hwalk]⟩

theorem goesOn_relay (hrun : f.runs[r]? = some run) (hprogress : run.progress = .underWay)
    (hwalk : f.walkStep? r = none) (hrelay : f.relayStep? run.session = some f') :
    f.GoesOn r f' :=
  ⟨.relay run.session, hrelay, rfl, by
    simp [errandStep?, hrun, Run.isUnderWay, hprogress, firstMove?, move?, hwalk, hrelay]⟩

theorem goesOn_work (hrun : f.runs[r]? = some run) (hprogress : run.progress = .underWay)
    (hwalk : f.walkStep? r = none) (hrelay : f.relayStep? run.session = none)
    (hwork : f.workStep? 0 = some f') : f.GoesOn r f' :=
  ⟨.work 0, hwork, rfl, by
    simp [errandStep?, hrun, Run.isUnderWay, hprogress, firstMove?, move?, hwalk, hrelay, hwork]⟩

theorem goesOn_wait (hrun : f.runs[r]? = some run) (hprogress : run.progress = .underWay)
    (hwalk : f.walkStep? r = none) (hrelay : f.relayStep? run.session = none)
    (hwork : f.workStep? 0 = none) (htimer : f.nextTimer? = some moment)
    (hlater : f.now < moment) : f.GoesOn r { f with now := moment } := by
  have hmove : f.move? (.wait moment) = some { f with now := moment } := if_pos hlater
  refine ⟨.wait moment, hmove, rfl, ?_⟩
  have hstep : f.waitStep? = some { f with now := moment } := by
    rw [waitStep?, htimer]
    exact hmove
  simp [errandStep?, hrun, Run.isUnderWay, hprogress, firstMove?, move?, hwalk, hrelay, hwork, hstep]

/-- An errand is over with its run. -/
theorem errandStep?_of_ended {outcome : Except FarmError Float}
    (hended : f.outcome? r = some outcome) : errandStep? r f = none := by
  obtain ⟨run, hrun, hover⟩ := Option.bind_eq_some_iff.mp hended
  have hidle : run.isUnderWay = false := by
    unfold Run.outcome? at hover
    unfold Run.isUnderWay
    split at hover
    · next hprogress => rw [hprogress]
    · cases hover
  simp [errandStep?, hrun, hidle]

/-! ## Farms with one worker to reckon with -/

/-- The first worker does what it is said to do, and no other one has a timer. -/
structure Staffed (f : Farm) (occupation : Occupation) : Prop where
  first : ∃ worker, f.workers[0]? = some worker ∧ worker.occupation = occupation ∧
    worker.dismissed = false
  others : ∀ (w : WorkerId) (worker : Worker), w ≠ 0 → f.workers[w]? = some worker →
    worker.timer? = none

/-- Nothing is at the exchange, and the first worker is ready. -/
structure AtRest (f : Farm) : Prop where
  hosts : f.exchange.Hosts 0 .home
  staffed : f.Staffed .ready

theorem Staffed.congr {o : Occupation} (h : f.Staffed o) (hworkers : f'.workers = f.workers) :
    f'.Staffed o := by
  constructor
  · rw [hworkers]
    exact h.first
  · rw [hworkers]
    exact h.others

theorem Staffed.setWorker {o : Occupation} (h : f.Staffed o) {worker : Worker}
    (hdismissed : worker.dismissed = false) : (f.setWorker 0 worker).Staffed worker.occupation := by
  obtain ⟨old, hold, -, -⟩ := h.first
  obtain ⟨hlt, -⟩ := Array.getElem?_eq_some_iff.mp hold
  constructor
  · exact ⟨worker, by simp [Farm.setWorker, hlt], rfl, hdismissed⟩
  · intro w found hne hfound
    have hkept : (f.setWorker 0 worker).workers[w]? = f.workers[w]? := by
      simp [Farm.setWorker, Ne.symm hne]
    exact h.others w found hne (hkept ▸ hfound)

theorem foldl_timers {workers : List Worker} (h : ∀ worker ∈ workers, worker.timer? = none)
    (time : Option Nat) :
    workers.foldl (fun time w => earlier? time w.timer?) time = time := by
  induction workers with
  | nil => rfl
  | cons worker rest ih =>
      have hfirst : earlier? time worker.timer? = time := by
        rw [h worker List.mem_cons_self]
        cases time <;> rfl
      rw [List.foldl_cons, hfirst]
      exact ih fun worker hworker => h worker (List.mem_cons_of_mem _ hworker)

/-- The next timer is that of the first worker, if nobody waits at the queue. -/
theorem Staffed.nextTimer? {o : Occupation} (h : f.Staffed o)
    (hdeadline : f.exchange.fetchDeadline? = none) {worker : Worker}
    (hworker : f.workers[0]? = some worker) : f.nextTimer? = worker.timer? := by
  rw [Farm.nextTimer?, hdeadline, ← Array.foldl_toList]
  have hfirst : f.workers.toList[0]? = some worker := by simpa using hworker
  cases hworkers : f.workers.toList with
  | nil => simp [hworkers] at hfirst
  | cons first rest =>
      obtain rfl : first = worker := by simpa [hworkers] using hfirst
      rw [List.foldl_cons, foldl_timers]
      · cases first.timer? <;> rfl
      · intro other hother
        obtain ⟨w, hw⟩ := List.mem_iff_getElem?.mp hother
        refine h.others (w + 1) other (Nat.succ_ne_zero w) ?_
        rw [← Array.getElem?_toList, hworkers]
        simpa using hw

/-! ## Errands -/

/-- A run under way whose task is on its trip, and which takes at most so many steps. -/
structure Errand (f : Farm) (r : RunId) (run : Run) (trip : Trip) (t : OpTree Nat)
    (xs : List Assignment) (n : Nat) : Prop where
  run_eq : f.runs[r]? = some run
  underWay : run.progress = .underWay
  bears : f.exchange.Bears run.session trip
  staffed : f.Staffed trip.occupation
  fits : trip.Fits run.walk.stage
  shows : run.plan.arena.Shows t
  sound : Outing.Sound run.plan t ⟨run.walk, xs⟩
  takes : ∃ k, run.walk.Takes run.plan k ∧ k + trip.delay f.now ≤ n

/-- An errand makes a step, and has fewer to make then or is over. -/
def GetsOn (f : Farm) (r : RunId) (t : OpTree Nat) (n : Nat) : Prop :=
  ∃ f', f.GoesOn r f' ∧
    ((∃ run trip xs, f'.Errand r run trip t xs n) ∨
      f'.AtRest ∧ ∃ outcome, f'.outcome? r = some outcome)

namespace Errand

variable {trip : Trip} {t : OpTree Nat} {xs : List Assignment} {n : Nat} {task : Task}

/-! ### The walk waits -/

theorem awaiting (h : f.Errand r run trip t xs n) (htask : trip.task? = some task) :
    ∃ node, run.walk.stage = .awaiting node task.id := by
  have hout : trip ≠ .home := by
    rintro rfl
    cases htask
  have hfits := h.fits
  cases hstage : run.walk.stage with
  | walking | offering | finished =>
      rw [hstage] at hfits
      exact absurd hfits hout
  | awaiting node id =>
      rw [hstage] at hfits
      obtain ⟨task', htask', rfl⟩ := hfits
      obtain rfl := Option.some.inj (htask'.symm.trans htask)
      exact ⟨node, rfl⟩
  | stuck =>
      rw [hstage] at hfits
      exact hfits.elim

/-- The walk has to wait as long as the result is not there. -/
theorem walk_waits (h : f.Errand r run trip t xs n) (htask : trip.task? = some task)
    (hunanswered : ∀ task, trip ≠ .answered task) : f.walkStep? r = none := by
  obtain ⟨node, hstage⟩ := h.awaiting htask
  have hreceive := h.bears.receives_nothing hunanswered
  simp [walkStep?, h.run_eq, Run.isUnderWay, h.underWay, hstage, hreceive]

theorem relay_waits (h : f.Errand r run trip t xs n) (hsession : trip.session = .opened) :
    f.relayStep? run.session = none := by
  rw [Farm.relayStep?, h.bears.relay_rests hsession]
  rfl

/-- The task goes on, or the first worker or the clock does, while the walk waits. -/
theorem moves (h : f.Errand r run trip t xs (n + 1)) (hgoes : f.GoesOn r f')
    (hruns : f'.runs = f.runs) {trip' : Trip} (hbears : f'.exchange.Bears run.session trip')
    (hstaffed : f'.Staffed trip'.occupation) (htask : trip.task? = some task)
    (htask' : trip'.task? = some task) (hdelay : trip'.delay f'.now < trip.delay f.now) :
    f.GetsOn r t n := by
  obtain ⟨k, htakes, hle⟩ := h.takes
  obtain ⟨node, hstage⟩ := h.awaiting htask
  refine ⟨f', hgoes, .inl ⟨run, trip', xs, hruns ▸ h.run_eq, h.underWay, hbears, hstaffed, ?_,
    h.shows, h.sound, k, htakes, by omega⟩⟩
  rw [hstage]
  exact ⟨task, htask', rfl⟩

/-- The relay takes the task on. -/
theorem relays (h : f.Errand r run trip t xs (n + 1)) (htask : trip.task? = some task)
    (hunanswered : ∀ task, trip ≠ .answered task) {x : Exchange}
    (hx : f.exchange.relayStep? run.session = some x) {trip' : Trip}
    (hbears : x.Bears run.session trip') (htask' : trip'.task? = some task)
    (hoccupation : trip'.occupation = trip.occupation)
    (hdelay : trip'.delay f.now < trip.delay f.now) : f.GetsOn r t n := by
  have hrelay : f.relayStep? run.session = some { f with exchange := x } := by
    rw [Farm.relayStep?, hx]
    rfl
  have hgoes := goesOn_relay h.run_eq h.underWay (h.walk_waits htask hunanswered) hrelay
  have hstaffed : ({ f with exchange := x } : Farm).Staffed trip'.occupation :=
    hoccupation ▸ h.staffed.congr rfl
  exact h.moves hgoes rfl hbears hstaffed htask htask' hdelay

/-- The first worker goes on. -/
theorem works (h : f.Errand r run trip t xs (n + 1)) (htask : trip.task? = some task)
    (hunanswered : ∀ task, trip ≠ .answered task) (hsession : trip.session = .opened)
    {x : Exchange} {worker : Worker}
    (hwork : f.workStep? 0 = some (({ f with exchange := x } : Farm).setWorker 0 worker))
    (hdismissed : worker.dismissed = false) {trip' : Trip} (hbears : x.Bears run.session trip')
    (hoccupation : worker.occupation = trip'.occupation) (htask' : trip'.task? = some task)
    (hdelay : trip'.delay f.now < trip.delay f.now) : f.GetsOn r t n := by
  have hgoes := goesOn_work h.run_eq h.underWay (h.walk_waits htask hunanswered)
    (h.relay_waits hsession) hwork
  have hkept : ({ f with exchange := x } : Farm).Staffed trip.occupation := h.staffed.congr rfl
  have hstaffed := hkept.setWorker hdismissed
  exact h.moves hgoes rfl hbears (hoccupation ▸ hstaffed) htask htask' hdelay

/-! ### The walk goes on -/

theorem walks (h : f.Errand r run trip t xs (n + 1)) {walk : Walk}
    (hwalk : f.walkStep? r = some (f'.setWalk r run walk)) (hruns : f'.runs = f.runs)
    (hworkers : f'.workers = f.workers) {trip' : Trip}
    (hbears : f'.exchange.Bears run.session trip') (hoccupation : trip'.occupation = trip.occupation)
    (hfits : trip'.Fits walk.stage) {xs' : List Assignment}
    (hsound : Outing.Sound run.plan t ⟨walk, xs'⟩) {k : Nat} (htakes : walk.Takes run.plan k)
    (hle : k + trip'.delay f'.now ≤ n) : f.GetsOn r t n := by
  obtain ⟨hlt, -⟩ := Array.getElem?_eq_some_iff.mp h.run_eq
  refine ⟨_, goesOn_walk h.run_eq h.underWay hwalk, .inl ⟨{ run with walk }, trip', xs', ?_⟩⟩
  exact {
    run_eq := by simp [setWalk, setRun, hruns, hlt]
    underWay := h.underWay
    bears := hbears
    staffed := (hoccupation ▸ h.staffed).congr hworkers
    fits := hfits
    shows := h.shows
    sound := hsound
    takes := ⟨k, htakes, hle⟩ }

theorem turns (h : f.Errand r run .home t xs (n + 1)) (hstage : run.walk.stage = .walking) :
    f.GetsOn r t n := by
  obtain ⟨k, htakes, hle⟩ := h.takes
  have hwalk : f.walkStep? r = some ({ f with nextTask := f.nextTask + 1 }.setWalk r run
      (run.plan.proceed (f.naming.task f.nextTask) run.walk)) := by
    simp [walkStep?, h.run_eq, Run.isUnderWay, h.underWay, hstage]
  have hnext := h.sound.takes_turn hstage h.shows (f.naming.task f.nextTask)
    (htakes.mono (Nat.le_trans (Nat.le_add_right _ _) hle))
  have hmakes := makes_proceed run.plan (f.naming.task f.nextTask) hstage
  refine h.walks hwalk rfl rfl h.bears rfl ?_ (h.sound.turn h.shows _) hnext (Nat.le_refl n)
  unfold Walk.Takes at hnext
  generalize (run.plan.proceed (f.naming.task f.nextTask) run.walk).stage = stage at hmakes hnext ⊢
  cases stage with
  | walking | offering | finished => rfl
  | awaiting => exact hmakes.elim
  | stuck => exact hnext.elim

theorem sends (h : f.Errand r run .home t xs (n + 1)) {node : Nat}
    (hstage : run.walk.stage = .offering node task) : f.GetsOn r t n := by
  obtain ⟨k, htakes, hle⟩ := h.takes
  obtain ⟨x, hsend, hbears⟩ := h.bears.sends r task
  have hwalk : f.walkStep? r =
      some ({ f with exchange := x }.setWalk r run run.walk.accepted) := by
    simp [walkStep?, h.run_eq, Run.isUnderWay, h.underWay, hstage, hsend, afterSending]
  obtain ⟨hnine, hnext⟩ := htakes.accepted hstage
  refine h.walks hwalk rfl rfl hbears rfl ?_ (h.sound.taken h.shows hstage) hnext ?_
  · simp [Walk.accepted, hstage, Trip.Fits, Trip.task?]
  · simp only [Trip.delay] at hle ⊢
    omega

theorem receives (h : f.Errand r run (.answered task) t xs (n + 1)) : f.GetsOn r t n := by
  obtain ⟨k, htakes, hle⟩ := h.takes
  obtain ⟨x, hreceive, hbears⟩ := h.bears.receives
  obtain ⟨node, hstage⟩ := h.awaiting rfl
  have hwalk : f.walkStep? r =
      some ({ f with exchange := x }.setWalk r run (run.walk.received task.result)) := by
    simp [walkStep?, h.run_eq, Run.isUnderWay, h.underWay, hstage, hreceive]
  obtain ⟨k, rfl⟩ := Nat.exists_eq_succ_of_ne_zero (Nat.ne_of_gt htakes.pos)
  rw [← task.id_result] at hstage
  obtain ⟨y, earlier, rfl, hsound⟩ := h.sound.result h.shows hstage task.result
  refine h.walks hwalk rfl rfl hbears rfl ?_ hsound (htakes.received hstage) ?_
  · simp only [Walk.received, hstage, if_true]
    cases task.result.outcome <;> rfl
  · simp only [Trip.delay] at hle ⊢
    omega

/-- The walk is over: its run ends and the exchange is empty again. -/
theorem concludes (h : f.Errand r run .home t xs n) {outcome : Except EvalError Float}
    (hstage : run.walk.stage = .finished outcome) (n' : Nat) : f.GetsOn r t n' := by
  obtain ⟨hlt, -⟩ := Array.getElem?_eq_some_iff.mp h.run_eq
  have hwalk : f.walkStep? r = some (f.conclude r run outcome) := by
    simp [walkStep?, h.run_eq, Run.isUnderWay, h.underWay, hstage]
  have hhome : f.exchange.Hosts 0 .home :=
    ⟨h.bears.queue_eq, h.bears.routes_eq, h.bears.line_eq, h.bears.isOpen⟩
  refine ⟨_, goesOn_walk h.run_eq h.underWay hwalk, .inr ?_⟩
  unfold conclude
  simp only
  split
  · refine ⟨⟨hhome.release run.session, h.staffed.congr rfl⟩, ofWalk outcome, ?_⟩
    simp [outcome?, setRun, releaseSession, hlt, Run.outcome?]
  · next refusal _ =>
    refine ⟨⟨hhome.release run.session, h.staffed.congr rfl⟩, .error (.ledger refusal), ?_⟩
    simp [outcome?, setRun, releaseSession, hlt, Run.outcome?]

/-! ### The first worker and the clock go on -/

theorem looks (h : f.Errand r run (.queued task) t xs (n + 1)) : f.GetsOn r t n := by
  obtain ⟨worker, hworker, hready, hdismissed⟩ := h.staffed.first
  have hoccupation : worker.occupation = .ready := hready
  have hwork : f.workStep? 0 =
      some (({ f with exchange := f.exchange.startFetch 0 } : Farm).setWorker 0 worker.look) := by
    simp [workStep?, hworker, hoccupation, look, hdismissed, Farm.setWorker]
  refine h.works rfl (by simp) rfl hwork hdismissed h.bears.seeks ?_ rfl (by simp [Trip.delay])
  simp [Worker.look, hdismissed, Trip.occupation]

theorem fetches (h : f.Errand r run (.sought task) t xs (n + 1)) : f.GetsOn r t n := by
  obtain ⟨worker, hworker, hfetching, hdismissed⟩ := h.staffed.first
  have hoccupation : worker.occupation = .fetching := hfetching
  obtain ⟨x, hfetch, hbears⟩ := h.bears.fetches f.now (f.now + task.cost)
  have hwork : f.workStep? 0 =
      some (({ f with exchange := x } : Farm).setWorker 0 (worker.found task f.now)) := by
    simp [workStep?, hworker, hoccupation, hfetch, afterFetchStep]
  refine h.works rfl (by simp) rfl hwork hdismissed hbears rfl rfl ?_
  simp only [Trip.delay]
  split
  · omega
  · omega

theorem waits {doneAt : Nat} (h : f.Errand r run (.computed task doneAt) t xs (n + 1))
    (hlater : f.now < doneAt) : f.GetsOn r t n := by
  obtain ⟨worker, hworker, hcomputing, -⟩ := h.staffed.first
  have hoccupation : worker.occupation = .computing task doneAt := hcomputing
  have hearly : ¬doneAt ≤ f.now := Nat.not_le.mpr hlater
  have hwork : f.workStep? 0 = none := by
    simp [workStep?, hworker, hoccupation, hearly]
  have hdeadline : f.exchange.fetchDeadline? = none := by
    simp [Exchange.fetchDeadline?, h.bears.line_eq, Trip.line]
  have htimer : f.nextTimer? = some doneAt := by
    rw [h.staffed.nextTimer? hdeadline hworker, Worker.timer?, hoccupation]
  have hgoes := goesOn_wait h.run_eq h.underWay (h.walk_waits rfl (by simp)) (h.relay_waits rfl)
    hwork htimer hlater
  refine h.moves hgoes rfl h.bears (h.staffed.congr rfl) rfl rfl ?_
  simp [Trip.delay, hearly]

theorem submits {doneAt : Nat} (h : f.Errand r run (.computed task doneAt) t xs (n + 1))
    (hdone : doneAt ≤ f.now) : f.GetsOn r t n := by
  obtain ⟨worker, hworker, hcomputing, hdismissed⟩ := h.staffed.first
  have hoccupation : worker.occupation = .computing task doneAt := hcomputing
  obtain ⟨x, hsubmit, hbears⟩ := h.bears.submits 0
  have hwork : f.workStep? 0 =
      some (({ f with exchange := x } : Farm).setWorker 0 worker.resumed) := by
    simp [workStep?, hworker, hoccupation, hdone, submit, hsubmit, afterSubmission]
  exact h.works rfl (by simp) rfl hwork hdismissed hbears rfl rfl (by simp [Trip.delay, hdone])

/-! ### All of the errand -/

/-- Wherever the task is, the errand gets on. -/
theorem getsOn (h : f.Errand r run trip t xs (n + 1)) : f.GetsOn r t n := by
  cases trip with
  | home =>
      have hfits := h.fits
      cases hstage : run.walk.stage with
      | walking => exact h.turns hstage
      | offering node task => exact h.sends hstage
      | awaiting node id =>
          rw [hstage] at hfits
          obtain ⟨task, htask, -⟩ := hfits
          cases htask
      | finished outcome => exact h.concludes hstage n
      | stuck =>
          rw [hstage] at hfits
          exact hfits.elim
  | sent task =>
      obtain ⟨x, hx, hbears⟩ := h.bears.takes
      exact h.relays rfl (by simp) hx hbears rfl rfl (by simp [Trip.delay])
  | held task =>
      obtain ⟨x, hx, hbears⟩ := h.bears.puts
      exact h.relays rfl (by simp) hx hbears rfl rfl (by simp [Trip.delay])
  | queued task => exact h.looks
  | sought task => exact h.fetches
  | computed task doneAt =>
      rcases Nat.lt_or_ge f.now doneAt with hlater | hdone
      · exact h.waits hlater
      · exact h.submits hdone
  | answered task => exact h.receives

theorem pos (h : f.Errand r run trip t xs n) : 0 < n := by
  obtain ⟨k, htakes, hle⟩ := h.takes
  have hk := htakes.pos
  omega

/-- With enough patience the errand comes to its end. -/
theorem settles (h : f.Errand r run trip t xs n) {fuel : Nat} (hfuel : n ≤ fuel) :
    ∃ moves, (∀ m ∈ moves, m.isErrand = true) ∧
      f.play? moves = some (settleBy (errandStep? r) fuel f) ∧
      (settleBy (errandStep? r) fuel f).AtRest ∧
      ∃ outcome, (settleBy (errandStep? r) fuel f).outcome? r = some outcome := by
  -- every step leaves an errand that takes fewer steps, or the run is over
  induction n generalizing f run trip xs fuel with
  | zero => exact absurd h.pos (Nat.lt_irrefl 0)
  | succ n ih =>
      obtain ⟨fuel, rfl⟩ := Nat.exists_eq_succ_of_ne_zero
        (Nat.ne_of_gt (Nat.lt_of_lt_of_le (Nat.succ_pos n) hfuel))
      obtain ⟨f', ⟨m, hmove, hm, hstep⟩, hnext⟩ := h.getsOn
      simp only [settleBy, hstep]
      rcases hnext with ⟨run', trip', xs', hlater⟩ | ⟨hrest, outcome, hended⟩
      · obtain ⟨moves, hmoves, hplay, hend⟩ := ih hlater (Nat.le_of_succ_le_succ hfuel)
        refine ⟨m :: moves, ?_, ?_, hend⟩
        · intro m' hm'
          rcases List.mem_cons.mp hm' with rfl | hlater
          · exact hm
          · exact hmoves m' hlater
        · rw [play?, hmove]
          exact hplay
      · have hstays : settleBy (errandStep? r) fuel f' = f' := by
          cases fuel with
          | zero => rfl
          | succ fuel => rw [settleBy, errandStep?_of_ended hended]
        rw [hstays]
        refine ⟨[m], ?_, ?_, hrest, outcome, hended⟩
        · intro m' hm'
          rwa [List.mem_singleton.mp hm']
        · rw [play?, hmove]
          rfl

end Errand

end Farm

end TaskFarm
