import TaskFarm.Proofs.Exchange.Content
import TaskFarm.Proofs.Farm.Diary
import TaskFarm.Proofs.Farm.Handover

/-!
# When tasks are sent and when their results are there

The timeline of a history notes when a run sends a task and when it takes the result.  A result is
never there before its task has had the time that it takes: the worker that took the task waited so
long, and it took the task after it was sent.
-/

namespace TaskFarm

/-- What a run does with one of its tasks. -/
inductive Event where
  | sends (task : Task)
  /-- It takes the result of the task of this id. -/
  | consumes (id : TaskId)

/-- An event of a run and when it happened. -/
structure Mark where
  time : Nat
  run : RunId
  event : Event

/-- The events of one run, with their times. -/
def eventsOf (r : RunId) (marks : List Mark) : List (Nat × Event) :=
  (marks.filter fun m => m.run == r).map fun m => (m.time, m.event)

@[simp] theorem eventsOf_nil (r : RunId) : eventsOf r [] = [] :=
  rfl

@[simp] theorem eventsOf_append (r : RunId) (ms ms' : List Mark) :
    eventsOf r (ms ++ ms') = eventsOf r ms ++ eventsOf r ms' := by
  simp [eventsOf]

@[simp] theorem eventsOf_self (time : Nat) (r : RunId) (e : Event) :
    eventsOf r [⟨time, r, e⟩] = [(time, e)] := by
  simp [eventsOf]

theorem eventsOf_sorted {marks : List Mark}
    (h : marks.Pairwise fun mark mark' => mark.time ≤ mark'.time) (r : RunId) :
    (eventsOf r marks).Pairwise fun e e' => e.1 ≤ e'.1 :=
  List.pairwise_map.mpr (h.filter _)

theorem eventsOf_ne {r r' : RunId} (hne : r' ≠ r) (time : Nat) (e : Event) :
    eventsOf r [⟨time, r', e⟩] = [] := by
  simp [eventsOf, hne]

theorem mem_of_mem_eventsOf {r : RunId} {marks : List Mark} {time : Nat} {e : Event}
    (h : (time, e) ∈ eventsOf r marks) : ⟨time, r, e⟩ ∈ marks := by
  obtain ⟨⟨time', r', e'⟩, hmark, he⟩ := List.mem_map.mp h
  obtain ⟨hmem, hrun⟩ := List.mem_filter.mp hmark
  obtain ⟨rfl, rfl⟩ := Prod.mk.inj he
  obtain rfl : r' = r := by simpa using hrun
  exact hmem

def SentAt (marks : List Mark) (task : Task) (time : Nat) : Prop :=
  ∃ r, ⟨time, r, .sends task⟩ ∈ marks

def WasSent (marks : List Mark) (task : Task) : Prop :=
  ∃ time, SentAt marks task time

/-- The task was sent so long ago that its result may be there. -/
def IsDue (marks : List Mark) (now : Nat) (task : Task) : Prop :=
  ∃ time, SentAt marks task time ∧ time + task.cost ≤ now

theorem sentAt_append {marks new : List Mark} {task : Task} {time : Nat} :
    SentAt (marks ++ new) task time ↔ SentAt marks task time ∨ SentAt new task time := by
  simp [SentAt, exists_or]

theorem IsDue.mono {marks new : List Mark} {now now' : Nat} {task : Task}
    (h : IsDue marks now task) (hnow : now ≤ now') : IsDue (marks ++ new) now' task := by
  obtain ⟨time, hsent, hdue⟩ := h
  exact ⟨time, sentAt_append.mpr (.inl hsent), Nat.le_trans hdue hnow⟩

namespace Exchange

variable {genuine : Task → Prop} {P : TaskResult → Prop} {x x' : Exchange} {d : Deal}
  {deals : List Deal}

/-- A task that is taken was in the exchange. -/
theorem Carries.taken (h : x.Carries genuine) {w : WorkerId} {task : Task}
    (hdeed : d.deed? x = some (w, .takes task)) : genuine task := by
  cases d with
  | fetch party now =>
      obtain ⟨⟨reply, x'⟩, hfetch, hreply⟩ := Option.bind_eq_some_iff.mp hdeed
      obtain ⟨-, htaken⟩ := (fetches_of_fetchStep? hfetch).spec h
      rcases reply with _ | other | _ | _
      · cases hreply
      · cases hreply
        exact htaken task rfl
      · cases hreply
      · cases hreply
  | openSession | send | resumeSend | withdrawSend | dropTasks | relay | startFetch | leaveLine
  | submit | resumeSubmit | receive | dropResults | close => cases hdeed

/-- What comes in by some deals is what they bring, and so is what is taken meanwhile. -/
theorem carries_deals? (h : x.Carries genuine)
    (hsend : ∀ s party task, .send s party task ∉ deals)
    (hsubmit : ∀ party r, .submit party r ∈ deals → ∃ task, genuine task ∧ r = task.result)
    (hdeals : x.deals? deals = some x') :
    x'.Carries genuine ∧ ∀ w task, (w, .takes task) ∈ x.deeds deals → genuine task := by
  induction deals generalizing x with
  | nil =>
      obtain rfl := Option.some.inj hdeals
      exact ⟨h, fun w task htaken => by cases htaken⟩
  | cons d rest ih =>
      obtain ⟨next, hdeal, hrest⟩ := Option.bind_eq_some_iff.mp hdeals
      have hnext : next.Carries genuine := by
        refine h.deal ?_ ?_ hdeal
        · rintro s party task rfl
          exact absurd List.mem_cons_self (hsend s party task)
        · rintro party r rfl
          exact hsubmit party r List.mem_cons_self
      obtain ⟨hend, htaken⟩ := ih hnext
        (fun s party task hmem => hsend s party task (List.mem_cons_of_mem d hmem))
        (fun party r hmem => hsubmit party r (List.mem_cons_of_mem d hmem)) hrest
      refine ⟨hend, fun w task hmem => ?_⟩
      simp only [deeds, hdeal, Option.map_some, Option.getD_some, List.mem_append,
        Option.mem_toList] at hmem
      rcases hmem with hfirst | hlater
      · exact h.taken hfirst
      · exact htaken w task hlater

theorem resultsIn_deals? (h : x.ResultsIn P) (hsubmit : ∀ party r, .submit party r ∈ deals → P r)
    (hdeals : x.deals? deals = some x') : x'.ResultsIn P := by
  induction deals generalizing x with
  | nil => exact Option.some.inj hdeals ▸ h
  | cons d rest ih =>
      obtain ⟨next, hdeal, hrest⟩ := Option.bind_eq_some_iff.mp hdeals
      refine ih (h.deal ?_ hdeal)
        (fun party r hmem => hsubmit party r (List.mem_cons_of_mem d hmem)) hrest
      rintro party r rfl
      exact hsubmit party r List.mem_cons_self

end Exchange

namespace Farm

variable {f f' : Farm} {m : Move} {r : RunId} {run : Run} {past : List Mark}

/-! ## Timelines -/

/-- The event in a step of a run, if there is one. -/
def event? (f : Farm) (r : RunId) : Option Event :=
  (f.runs[r]?).bind fun run =>
    match run.isUnderWay, run.walk.stage with
    | true, .offering _ task =>
      match f.exchange.attemptSend? run.session r task with
      | some (.accepted, _) => some (.sends task)
      | _ => none
    | true, .awaiting _ id =>
      match f.exchange.receive run.session with
      | (.result result, _) => if result.id = id then some (.consumes id) else none
      | _ => none
    | _, _ => none

/-- What a move adds to the timeline. -/
def marks (f : Farm) : Move → List Mark
  | .walk r => (f.event? r).toList.map fun e => ⟨f.now, r, e⟩
  | _ => []

/-- The events of a history of moves, in order. -/
def timeline (f : Farm) : List Move → List Mark
  | [] => []
  | m :: rest => f.marks m ++ ((f.move? m).map fun f => f.timeline rest).getD []

theorem time_of_marks {mark : Mark} (h : mark ∈ f.marks m) : mark.time = f.now := by
  cases m with
  | walk r =>
      obtain ⟨e, -, rfl⟩ := List.mem_map.mp h
      rfl
  | accept | abandon | hire | dismiss | close | relay | work | quit | wait => cases h

/-- A move adds one event at most. -/
theorem marks_unique {mark mark' : Mark} (h : mark ∈ f.marks m) (h' : mark' ∈ f.marks m) :
    mark = mark' := by
  cases m with
  | walk r =>
      obtain ⟨e, he, rfl⟩ := List.mem_map.mp h
      obtain ⟨e', he', rfl⟩ := List.mem_map.mp h'
      rw [Option.mem_toList] at he he'
      rw [Option.mem_unique he he']
  | accept | abandon | hire | dismiss | close | relay | work | quit | wait => cases h

/-- A task that a move sends is offered by a run, and is accepted at once. -/
theorem sentAt_marks {task : Task} {time : Nat} (h : SentAt (f.marks m) task time) :
    time = f.now ∧ ∃ r run node x, m = .walk r ∧ f.runs[r]? = some run ∧
      run.progress = .underWay ∧ run.walk.stage = .offering node task ∧
      f.exchange.attemptSend? run.session r task = some (.accepted, x) := by
  obtain ⟨r', hmark⟩ := h
  cases m with
  | walk r =>
      simp only [marks, List.mem_map, Option.mem_toList, Mark.mk.injEq] at hmark
      obtain ⟨e, he, rfl, -, rfl⟩ := hmark
      obtain ⟨run, hrun, hevent⟩ := Option.bind_eq_some_iff.mp he
      split at hevent
      · next hunderWay hstage =>
        split at hevent
        · next hsend =>
          cases hevent
          exact ⟨rfl, r, run, _, _, rfl, hrun, progress_of_isUnderWay hunderWay, hstage, hsend⟩
        · cases hevent
      · split at hevent
        · split at hevent
          · cases hevent
          · cases hevent
        · cases hevent
      · cases hevent
  | accept | abandon | hire | dismiss | close | relay | work | quit | wait => cases hmark

/-! ## The clock, the names and the settings -/

/-- What a farm is set up with, its clock and how many names of tasks it has given. -/
def office (f : Farm) : Naming × Settings × Nat × Nat :=
  (f.naming, f.settings, f.now, f.nextTask)

/-- Time does not go back and no name is given twice. -/
structure Advances (f f' : Farm) : Prop where
  naming_eq : f'.naming = f.naming
  settings_eq : f'.settings = f.settings
  now_le : f.now ≤ f'.now
  nextTask_le : f.nextTask ≤ f'.nextTask

theorem Advances.of_office (h : f'.office = f.office) : Advances f f' := by
  obtain ⟨hnaming, hsettings, hnow, hnext⟩ := by simpa [office] using h
  exact ⟨hnaming, hsettings, hnow.ge, hnext.ge⟩

theorem Advances.refl (f : Farm) : Advances f f :=
  .of_office rfl

theorem Advances.trans {f₁ f₂ f₃ : Farm} (h : Advances f₁ f₂) (h' : Advances f₂ f₃) :
    Advances f₁ f₃ :=
  ⟨h'.naming_eq.trans h.naming_eq, h'.settings_eq.trans h.settings_eq,
    Nat.le_trans h.now_le h'.now_le, Nat.le_trans h.nextTask_le h'.nextTask_le⟩

theorem Advances.issued (h : Advances f f') {id : TaskId} (hid : f.Issued id) : f'.Issued id := by
  obtain ⟨k, hk, rfl⟩ := hid
  exact ⟨k, Nat.lt_of_lt_of_le hk h.nextTask_le, by rw [h.naming_eq]⟩

theorem office_accept (f : Farm) (source : String) : (f.accept source).2.office = f.office := by
  obtain ⟨ledger, exchange, runs, haccept⟩ := f.accept_eq source
  rw [haccept]
  rfl

theorem office_conclude (f : Farm) (r : RunId) (run : Run) (outcome : Except EvalError Float) :
    (f.conclude r run outcome).office = f.office := by
  simp only [conclude]
  split
  · rfl
  · rfl

theorem office_workStep? {w : WorkerId} (h : f.workStep? w = some f') : f'.office = f.office := by
  have hsubmitted : ∀ (g : Farm) (worker : Worker) (id : TaskId) (submission : Submission),
      (g.afterSubmission w worker id submission).office = g.office := by
    intro g worker id submission
    cases submission <;> rfl
  obtain ⟨worker, -, hworks⟩ := workStep?_cases h
  cases hworks with
  | looks =>
      unfold look
      simp only
      split
      · rfl
      · rfl
  | fetches =>
      unfold afterFetchStep
      split
      · rfl
      · rfl
      · rfl
  | submits => exact hsubmitted _ _ _ _
  | resumes => exact hsubmitted _ _ _ _
  | wakes => rfl

theorem advances_walkStep? (h : f.walkStep? r = some f') : Advances f f' := by
  obtain ⟨run, -, -, hwalks⟩ := walkStep?_cases h
  cases hwalks with
  | turns => exact ⟨rfl, rfl, Nat.le_refl _, Nat.le_succ _⟩
  | @sends _ _ _ sending =>
      refine .of_office ?_
      cases sending <;> rfl
  | receives | hangsUp => exact .of_office rfl
  | concludes => exact .of_office (f.office_conclude r run _)

theorem advances_move? (h : f.move? m = some f') : Advances f f' := by
  cases m with
  | accept source =>
      rw [← Option.some.inj h]
      exact .of_office (f.office_accept source)
  | abandon r =>
      rw [← Option.some.inj h]
      rcases f.abandon_cases r with hsame | ⟨run, -, -, habandon⟩
      · rw [hsame]
        exact .refl f
      · rw [habandon]
        exact .of_office rfl
  | hire | dismiss | close =>
      rw [← Option.some.inj h]
      exact .of_office rfl
  | walk r => exact advances_walkStep? h
  | relay s =>
      obtain ⟨x, -, rfl⟩ := Option.map_eq_some_iff.mp h
      exact .of_office rfl
  | work w => exact .of_office (office_workStep? h)
  | quit w =>
      obtain ⟨worker, -, -, -, rfl⟩ := quitStep?_cases h
      exact .of_office rfl
  | wait moment =>
      obtain ⟨hlater, rfl⟩ := wait_cases h
      exact ⟨rfl, rfl, Nat.le_of_lt hlater, Nat.le_refl _⟩

theorem advances_play? {moves : List Move} (hplay : f.play? moves = some f') :
    Advances f f' := by
  induction moves generalizing f with
  | nil =>
      obtain rfl := Option.some.inj hplay
      exact .refl f
  | cons m rest ih =>
      obtain ⟨next, hmove, hrest⟩ := Option.bind_eq_some_iff.mp hplay
      exact (advances_move? hmove).trans (ih hrest)

theorem timeline_cons {next : Farm} (hmove : f.move? m = some next) (rest : List Move) :
    f.timeline (m :: rest) = f.marks m ++ next.timeline rest := by
  rw [timeline, hmove, Option.map_some, Option.getD_some]

theorem timeline_within {moves : List Move} (hplay : f.play? moves = some f') {mark : Mark}
    (hmark : mark ∈ f.timeline moves) : f.now ≤ mark.time ∧ mark.time ≤ f'.now := by
  induction moves generalizing f with
  | nil => cases hmark
  | cons m rest ih =>
      obtain ⟨next, hmove, hrest⟩ := Option.bind_eq_some_iff.mp hplay
      have hnext := (advances_move? hmove).now_le
      rw [timeline_cons hmove, List.mem_append] at hmark
      rcases hmark with hfirst | hlater
      · rw [time_of_marks hfirst]
        exact ⟨Nat.le_refl _, (advances_play? hplay).now_le⟩
      · obtain ⟨hstart, hend⟩ := ih hrest hlater
        exact ⟨Nat.le_trans hnext hstart, hend⟩

/-- The events of a history are noted in the order of their times. -/
theorem timeline_sorted {moves : List Move} (hplay : f.play? moves = some f') :
    (f.timeline moves).Pairwise fun mark mark' => mark.time ≤ mark'.time := by
  induction moves generalizing f with
  | nil => exact List.Pairwise.nil
  | cons m rest ih =>
      obtain ⟨next, hmove, hrest⟩ := Option.bind_eq_some_iff.mp hplay
      rw [timeline_cons hmove, List.pairwise_append]
      refine ⟨?_, ih hrest, fun mark hmark mark' hmark' => ?_⟩
      · refine List.pairwise_of_forall_mem_list fun mark hmark mark' hmark' => ?_
        rw [time_of_marks hmark, time_of_marks hmark']
      · rw [time_of_marks hmark]
        exact Nat.le_trans (advances_move? hmove).now_le (timeline_within hrest hmark').1

/-! ## Tasks and results take their time -/

/-- What is known of the tasks and results in a farm by the times at which the tasks were sent. -/
structure Stocked (f : Farm) (past : List Mark) : Prop where
  carries : f.exchange.Carries (WasSent past)
  results : f.exchange.ResultsIn fun r => ∃ task, IsDue past f.now task ∧ r = task.result
  computing : ∀ (w : WorkerId) (worker : Worker) (task : Task) (doneAt : Nat),
    f.workers[w]? = some worker → worker.occupation = .computing task doneAt →
    IsDue past doneAt task
  past_le : ∀ mark ∈ past, mark.time ≤ f.now
  /-- No task is sent twice, and no two tasks share an id. -/
  once : ∀ task task' time time', SentAt past task time → SentAt past task' time' →
    task.id = task'.id → task = task' ∧ time = time'
  issued : ∀ task time, SentAt past task time → f.Issued task.id

theorem stocked_opened (naming : Naming) (settings : Settings) (books : Bookkeeper) :
    (openedWith naming settings books).Stocked [] where
  carries := Exchange.carries_opened settings.queue _
  results := Exchange.resultsIn_opened settings.queue
  computing := by simp [openedWith]
  past_le := nofun
  once := by simp [SentAt]
  issued := by simp [SentAt]

theorem send_not_mem_dealsOf (hm : ∀ r, m ≠ .walk r) (s : SessionId) (party : Party)
    (task : Task) : .send s party task ∉ f.dealsOf m := by
  cases m with
  | accept source =>
      simp only [dealsOf, acceptDeals]
      split
      · simp
      · simp
  | abandon r =>
      cases hrun : f.runs[r]? with
      | none => simp [dealsOf, hrun]
      | some run =>
          simp only [dealsOf, hrun, Option.map_some, Option.getD_some, abandonDeals]
          split
          · simp [releaseDeals]
          · simp
  | walk r => exact absurd rfl (hm r)
  | work w =>
      cases hw : f.workers[w]? with
      | none => simp [dealsOf, hw]
      | some worker =>
          simp only [dealsOf, hw, Option.map_some, Option.getD_some, workDeals]
          split
          · split
            · simp
            · simp
          all_goals simp
  | hire | dismiss | close | relay | quit | wait => simp [dealsOf]

/-- A result is submitted only by the worker that computed the task, and in due time. -/
theorem submit_mem_dealsOf (hmove : f.move? m = some f') {party : Party} {result : TaskResult}
    (hd : .submit party result ∈ f.dealsOf m) :
    ∃ worker task doneAt, f.workers[party]? = some worker ∧
      worker.occupation = .computing task doneAt ∧ doneAt ≤ f.now ∧ result = task.result := by
  cases m with
  | accept | abandon | hire | dismiss | close | walk | relay | wait =>
      cases isOfWorker_dealsOf rfl hd
  | quit w =>
      rw [dealsOf, List.mem_singleton] at hd
      cases hd
  | work w =>
      obtain ⟨worker, hw, hworks⟩ := workStep?_cases hmove
      simp only [dealsOf, hw, Option.map_some, Option.getD_some, workDeals] at hd
      cases hworks with
      | looks hready =>
          simp only [hready] at hd
          split at hd
          · cases hd
          · cases List.mem_singleton.mp hd
      | fetches hfetching =>
          simp only [hfetching] at hd
          cases List.mem_singleton.mp hd
      | @submits task doneAt hcomputing hdone =>
          simp only [hcomputing] at hd
          cases List.mem_singleton.mp hd
          exact ⟨worker, task, doneAt, hw, hcomputing, hdone, rfl⟩
      | resumes hsubmitting =>
          simp only [hsubmitting] at hd
          cases List.mem_singleton.mp hd
      | wakes hpausing =>
          simp only [hpausing] at hd
          cases hd

theorem marks_sends (hrun : f.runs[r]? = some run) (hprogress : run.progress = .underWay)
    {node : Nat} {task : Task} (hstage : run.walk.stage = .offering node task) {x : Exchange}
    (hsend : f.exchange.attemptSend? run.session r task = some (.accepted, x)) :
    f.marks (.walk r) = [⟨f.now, r, .sends task⟩] := by
  simp [marks, event?, hrun, Run.isUnderWay, hprogress, hstage, hsend]

/-- Nobody has to wait with a task that a run offers. -/
def SendsAtOnce (f : Farm) : Prop :=
  ∀ (r : RunId) (run : Run) (node : Nat) (task : Task) (x : Exchange), f.runs[r]? = some run →
    run.progress = .underWay → run.walk.stage = .offering node task →
    f.exchange.attemptSend? run.session r task ≠ some (.waiting, x)

theorem Stocked.walk_carries (h : f.Stocked past) (hwait : f.SendsAtOnce)
    (hstep : f.walkStep? r = some f') :
    f'.exchange.Carries (WasSent (past ++ f.marks (.walk r))) := by
  have hold : f.exchange.Carries (WasSent (past ++ f.marks (.walk r))) :=
    h.carries.mono fun task ⟨time, hsent⟩ => ⟨time, sentAt_append.mpr (.inl hsent)⟩
  obtain ⟨run, hrun, hprogress, hwalks⟩ := walkStep?_cases hstep
  cases hwalks with
  | turns => exact hold
  | @sends node task hstage sending x hsend =>
      cases sending with
      | accepted =>
          refine (Exchange.attemptSend?_spec hold ⟨f.now, sentAt_append.mpr (.inr ⟨r, ?_⟩)⟩ hsend).1
          rw [marks_sends hrun hprogress hstage hsend]
          exact List.mem_singleton_self _
      | waiting => exact absurd hsend (hwait r run node task x hrun hprogress hstage)
      | refused => exact hold.attemptSend_refused hsend
  | receives _ hreceive => exact (Exchange.receive_spec hold hreceive).1.1
  | hangsUp => exact hold
  | @concludes outcome =>
      have hreleased := Exchange.carries_dropResults
        (Exchange.carries_dropTasks hold run.session) run.session
      simp only [conclude]
      split
      · exact hreleased
      · exact hreleased

/-- What the exchange carries after a move, and what a worker takes in it. -/
theorem Stocked.move_carries (h : f.Stocked past) (hwait : f.SendsAtOnce)
    (hmove : f.move? m = some f') :
    f'.exchange.Carries (WasSent (past ++ f.marks m)) ∧
      ∀ w task, (w, .takes task) ∈ f.exchange.deeds (f.dealsOf m) → WasSent past task := by
  by_cases hwalk : ∃ r, m = .walk r
  · obtain ⟨r, rfl⟩ := hwalk
    refine ⟨h.walk_carries hwait hmove, fun w task htakes => ?_⟩
    rw [deeds_dealsOf rfl] at htakes
    cases htakes
  · have hnone : f.marks m = [] := by
      cases m with
      | walk r => exact absurd ⟨r, rfl⟩ hwalk
      | accept | abandon | hire | dismiss | close | relay | work | quit | wait => rfl
    rw [hnone, List.append_nil]
    refine Exchange.carries_deals? h.carries
      (send_not_mem_dealsOf fun r hm => hwalk ⟨r, hm⟩) ?_ (deals?_dealsOf hmove)
    intro party result hsubmit
    obtain ⟨worker, task, doneAt, hw, hcomputing, -, rfl⟩ := submit_mem_dealsOf hmove hsubmit
    obtain ⟨time, hsent, -⟩ := h.computing party worker task doneAt hw hcomputing
    exact ⟨task, ⟨time, hsent⟩, rfl⟩

theorem Stocked.move_results (h : f.Stocked past) (hmove : f.move? m = some f') :
    f'.exchange.ResultsIn fun r =>
      ∃ task, IsDue (past ++ f.marks m) f'.now task ∧ r = task.result := by
  have hnow := (advances_move? hmove).now_le
  refine Exchange.resultsIn_deals? (h.results.mono ?_) ?_ (deals?_dealsOf hmove)
  · rintro r ⟨task, hdue, rfl⟩
    exact ⟨task, hdue.mono hnow, rfl⟩
  · intro party result hsubmit
    obtain ⟨worker, task, doneAt, hw, hcomputing, hdone, rfl⟩ := submit_mem_dealsOf hmove hsubmit
    exact ⟨task, (h.computing party worker task doneAt hw hcomputing).mono
      (Nat.le_trans hdone hnow), rfl⟩

/-- A worker that computes a task took it after it was sent. -/
theorem Stocked.move_computing (h : f.Stocked past) (hwait : f.SendsAtOnce)
    (hmove : f.move? m = some f') {w : WorkerId} {worker : Worker} {task : Task} {doneAt : Nat}
    (hw : f'.workers[w]? = some worker) (hcomputing : worker.occupation = .computing task doneAt) :
    IsDue (past ++ f.marks m) doneAt task := by
  have hfares := fares_move? hmove w
  have htaken := (h.move_carries hwait hmove).2 w
  simp only [← mem_deedsOf] at htaken
  generalize deedsOf w (f.exchange.deeds (f.dealsOf m)) = deeds at hfares htaken
  rw [hw] at hfares
  generalize hold : f.workers[w]? = old at hfares
  cases hfares with
  | hired => cases hcomputing
  | @proceeds a _ _ hproceeds =>
      rw [hcomputing] at hproceeds
      generalize hbefore : a.occupation = before at hproceeds
      generalize a.dismissed = dismissed at hproceeds
      cases hproceeds with
      | rests => exact (h.computing w a task doneAt hold hbefore).mono (Nat.le_refl _)
      | takes =>
          obtain ⟨time, hsent⟩ := htaken task List.mem_cons_self
          obtain ⟨r, hmark⟩ := hsent
          exact ⟨time, sentAt_append.mpr (.inl ⟨r, hmark⟩),
            Nat.add_le_add_right (h.past_le _ hmark) _⟩
      | submits _ _ _ hnext =>
          rcases hnext with hnext | ⟨s, hnext⟩
          · cases hnext
          · cases hnext
      | resumes _ _ hnext =>
          rcases hnext with hnext | ⟨s, hnext⟩
          · cases hnext
          · cases hnext

/-- A farm stays so if what is sent in a move has a name of its own. -/
theorem Stocked.move (h : f.Stocked past) (hwait : f.SendsAtOnce)
    (hnew : ∀ task time, SentAt (f.marks m) task time →
      f.Issued task.id ∧ ∀ task' time', SentAt past task' time' → task'.id ≠ task.id)
    (hmove : f.move? m = some f') : f'.Stocked (past ++ f.marks m) := by
  have hadvances := advances_move? hmove
  constructor
  · exact (h.move_carries hwait hmove).1
  · exact h.move_results hmove
  · exact fun w worker task doneAt => h.move_computing hwait hmove
  · intro mark hmark
    rcases List.mem_append.mp hmark with hold | hnow
    · exact Nat.le_trans (h.past_le mark hold) hadvances.now_le
    · rw [time_of_marks hnow]
      exact hadvances.now_le
  · intro task task' time time' hsent hsent' hid
    rcases sentAt_append.mp hsent with hold | hnow
    · rcases sentAt_append.mp hsent' with hold' | hnow'
      · exact h.once task task' time time' hold hold' hid
      · exact absurd hid ((hnew task' time' hnow').2 task time hold)
    · rcases sentAt_append.mp hsent' with hold' | hnow'
      · exact absurd hid.symm ((hnew task time hnow).2 task' time' hold')
      · obtain ⟨r, hmark⟩ := hnow
        obtain ⟨r', hmark'⟩ := hnow'
        cases marks_unique hmark hmark'
        exact ⟨rfl, rfl⟩
  · intro task time hsent
    rcases sentAt_append.mp hsent with hold | hnow
    · exact hadvances.issued (h.issued task time hold)
    · exact hadvances.issued (hnew task time hnow).1

end Farm

end TaskFarm
