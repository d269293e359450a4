import TaskFarm.Proofs.Farm.Strides

/-!
# A run has one task out at a time

A stint is a task from its sending until its result is taken.  The events of a run are those of some
stints, one after the other, and of a last task that may still be out.  Each stint lasts as long as
its task takes at least.
-/

namespace TaskFarm

open TaskFarm.Expr (Arena OpTree)

/-- A task from its sending until its result is taken. -/
structure Stint where
  task : Task
  sent : Nat
  consumed : Nat

def Stint.events (s : Stint) : List (Nat × Event) :=
  [(s.sent, .sends s.task), (s.consumed, .consumes s.task.id)]

/-- A task that is out, and when it was sent. -/
def pendingEvents : Option (Nat × Task) → List (Nat × Event)
  | some (sent, task) => [(sent, .sends task)]
  | none => []

def AllSucceed (stints : List Stint) : Prop :=
  ∀ s ∈ stints, ∃ value, s.task.compute = .ok value

theorem AllSucceed.concat {stints : List Stint} (h : AllSucceed stints) {s : Stint}
    (hs : ∃ value, s.task.compute = .ok value) : AllSucceed (stints ++ [s]) := by
  intro s' hs'
  rcases List.mem_append.mp hs' with hold | hnew
  · exact h s' hold
  · rwa [List.mem_singleton.mp hnew]

/-- A task is out just while its result is awaited. -/
def Stage.Paces (stints : List Stint) (pending : Option (Nat × Task)) : Stage → Prop
  | .walking | .offering _ _ | .finished (.ok _) => pending = none ∧ AllSucceed stints
  | .awaiting _ id =>
    (∃ sent task, pending = some (sent, task) ∧ task.id = id) ∧ AllSucceed stints
  | .finished (.error _) | .stuck => True

theorem Stage.Makes.paces {stints : List Stint} {fresh : TaskId} {stage : Stage}
    (h : stage.Makes fresh) (hall : AllSucceed stints) : stage.Paces stints none := by
  cases stage with
  | walking | offering => exact ⟨rfl, hall⟩
  | awaiting => exact h.elim
  | finished outcome =>
      cases outcome with
      | ok value => exact ⟨rfl, hall⟩
      | error cause => trivial
  | stuck => trivial

/-- The tasks of a run are sent one after the other, each when the result of the one before is
there. -/
structure Run.Paced (run : Run) (events : List (Nat × Event)) (t : OpTree Nat)
    (xs : List Assignment) (stints : List Stint) (pending : Option (Nat × Task)) : Prop where
  shows : run.plan.arena.Shows t
  sound : Outing.Sound run.plan t ⟨run.walk, xs⟩
  events_eq : events = stints.flatMap Stint.events ++ pendingEvents pending
  tasks_eq : xs.reverse.map Assignment.task =
    stints.map Stint.task ++ pending.toList.map Prod.snd
  lasts : ∀ s ∈ stints, s.sent + s.task.cost ≤ s.consumed
  paces : run.walk.stage.Paces stints pending
  /-- Only a walk that has found a value lets its run end with one. -/
  ended : run.progress ≠ .underWay → run.progress.EndsAt run.walk.stage

namespace Run.Paced

variable {f : Farm} {past : List Mark} {r : RunId} {run : Run} {run? : Option Run}
  {events new : List (Nat × Event)} {t : OpTree Nat} {xs : List Assignment} {stints : List Stint}
  {pending : Option (Nat × Task)}

theorem begun {arena : Arena} (ht : arena.Shows t) (settings : Settings)
    (expression : ExpressionId) (session : SessionId) :
    (Run.begun settings expression arena session).Paced [] t [] [] none where
  shows := ht
  sound := Outing.sound_start ht
  events_eq := rfl
  tasks_eq := rfl
  lasts := by simp
  paces := ⟨rfl, by simp [AllSucceed]⟩
  ended hover := absurd rfl hover

/-- Nothing happens at the exchange, and the walk goes on. -/
theorem setWalk (h : run.Paced events t xs stints pending) (hprogress : run.progress = .underWay)
    {walk : Walk} (hsound : Outing.Sound run.plan t ⟨walk, xs⟩)
    (hpaces : walk.stage.Paces stints pending) :
    Run.Paced { run with walk } events t xs stints pending :=
  { h with
    sound := hsound
    paces := hpaces
    ended := fun hover => absurd hprogress hover }

theorem idle (h : run.Paced events t xs stints pending)
    (hstage : run.walk.stage = .walking ∨ ∃ node task, run.walk.stage = .offering node task) :
    pending = none ∧ AllSucceed stints := by
  have hpaces := h.paces
  rcases hstage with hstage | ⟨node, task, hstage⟩
  · rwa [hstage] at hpaces
  · rwa [hstage] at hpaces

theorem turns (h : run.Paced events t xs stints pending) (hprogress : run.progress = .underWay)
    (hstage : run.walk.stage = .walking) (fresh : TaskId) :
    Run.Paced { run with walk := run.plan.proceed fresh run.walk } events t xs stints pending := by
  obtain ⟨rfl, hall⟩ := h.idle (.inl hstage)
  exact h.setWalk hprogress (h.sound.turn h.shows fresh)
    ((makes_proceed run.plan fresh hstage).paces hall)

theorem sends (h : run.Paced events t xs stints pending) (hprogress : run.progress = .underWay)
    {node : Nat} {task : Task} (hstage : run.walk.stage = .offering node task) (now : Nat) :
    Run.Paced { run with walk := run.walk.accepted } (events ++ [(now, .sends task)]) t
      (⟨node, task, []⟩ :: xs) stints (some (now, task)) := by
  obtain ⟨rfl, hall⟩ := h.idle (.inr ⟨node, task, hstage⟩)
  have hwalk : run.walk.accepted.stage = .awaiting node task.id := by
    simp [Walk.accepted, hstage]
  constructor
  · exact h.shows
  · exact h.sound.taken h.shows hstage
  · rw [h.events_eq]
    simp [pendingEvents]
  · simpa using h.tasks_eq
  · exact h.lasts
  · rw [hwalk]
    exact ⟨⟨now, task, rfl, rfl⟩, hall⟩
  · exact fun hover => absurd hprogress hover

theorem refused (h : run.Paced events t xs stints pending) (hprogress : run.progress = .underWay)
    {node : Nat} {task : Task} (hstage : run.walk.stage = .offering node task) :
    Run.Paced { run with walk := run.walk.refused } events t xs stints pending := by
  refine h.setWalk hprogress (h.sound.refused hstage) ?_
  simp [Walk.refused, hstage, Stage.Paces]

theorem hangsUp (h : run.Paced events t xs stints pending) (hprogress : run.progress = .underWay)
    {node : Nat} {id : TaskId} (hstage : run.walk.stage = .awaiting node id) :
    Run.Paced { run with walk := run.walk.hungUp } events t xs stints pending := by
  refine h.setWalk hprogress (h.sound.hangUp hstage) ?_
  simp [Walk.hungUp, hstage, Stage.Paces]

theorem ends (h : run.Paced events t xs stints pending) {progress : Progress}
    (hends : progress.EndsAt run.walk.stage) :
    Run.Paced { run with progress } events t xs stints pending :=
  { h with ended := fun _ => hends }

/-- A result that comes is that of the task that is out, and the task has had its time. -/
theorem receives (h : run.Paced (eventsOf r past) t xs stints pending) (hstocked : f.Stocked past)
    (hprogress : run.progress = .underWay) {node : Nat} {id : TaskId}
    (hstage : run.walk.stage = .awaiting node id) {result : TaskResult} {x : Exchange}
    (hreceive : f.exchange.receive run.session = (.result result, x)) :
    ∃ xs' stints' pending', Run.Paced { run with walk := run.walk.received result }
      (eventsOf r past ++ if result.id = id then [(f.now, .consumes id)] else []) t xs' stints'
      pending' := by
  have hpaces := h.paces
  rw [hstage] at hpaces
  obtain ⟨⟨sent, task, rfl, hid⟩, hall⟩ := hpaces
  obtain ⟨a, earlier, rfl, hsound⟩ := h.sound.result h.shows hstage result
  have htasks : (({ a with read := a.read ++ [result] } : Assignment) :: earlier).reverse.map
      Assignment.task = stints.map Stint.task ++ [task] := by
    simpa using h.tasks_eq
  by_cases hmatch : result.id = id
  · rw [if_pos hmatch]
    obtain ⟨other, ⟨time, hsent', hdue⟩, rfl⟩ := (hstocked.results.receive hreceive).2 _ rfl
    have hsent : SentAt past task sent := by
      refine ⟨r, mem_of_mem_eventsOf ?_⟩
      rw [h.events_eq]
      simp [pendingEvents]
    obtain ⟨rfl, rfl⟩ := hstocked.once _ _ _ _ hsent hsent'
      (hid.trans (hmatch.symm.trans other.id_result))
    refine ⟨{ a with read := a.read ++ [task.result] } :: earlier,
      stints ++ [⟨task, sent, f.now⟩], none, ?_⟩
    constructor
    · exact h.shows
    · exact hsound
    · rw [h.events_eq]
      simp [Stint.events, pendingEvents, hid]
    · simpa using htasks
    · intro s hs
      rcases List.mem_append.mp hs with hold | hnew
      · exact h.lasts s hold
      · rw [List.mem_singleton.mp hnew]
        exact hdue
    · simp only [Walk.received, hstage, hmatch, if_true, task.outcome_result]
      cases hcompute : task.compute with
      | ok value => exact ⟨rfl, hall.concat ⟨value, hcompute⟩⟩
      | error cause => trivial
    · exact fun hover => absurd hprogress hover
  · rw [if_neg hmatch, List.append_nil]
    rw [Walk.received_stale hstage hmatch] at hsound ⊢
    exact ⟨_, stints, some (sent, task), { h with sound := hsound, tasks_eq := htasks }⟩

/-- Whatever becomes of a run, its tasks are sent one after the other. -/
theorem strides (h : run.Paced (eventsOf r past) t xs stints pending) (hstocked : f.Stocked past)
    (hstrides : f.Strides r (some run) new run?) :
    ∃ run' xs' stints' pending', run? = some run' ∧
      run'.Paced (eventsOf r past ++ new) t xs' stints' pending' := by
  cases hstrides with
  | rests => exact ⟨run, xs, stints, pending, rfl, by rwa [List.append_nil]⟩
  | turns hprogress hstage =>
      exact ⟨_, xs, stints, pending, rfl, by
        rw [List.append_nil]
        exact h.turns hprogress hstage _⟩
  | sends hprogress hstage => exact ⟨_, _, _, _, rfl, h.sends hprogress hstage f.now⟩
  | refused hprogress hstage =>
      exact ⟨_, xs, stints, pending, rfl, by
        rw [List.append_nil]
        exact h.refused hprogress hstage⟩
  | receives hprogress hstage hreceive =>
      obtain ⟨xs', stints', pending', hpaced⟩ := h.receives hstocked hprogress hstage hreceive
      exact ⟨_, xs', stints', pending', rfl, hpaced⟩
  | hangsUp hprogress hstage =>
      exact ⟨_, xs, stints, pending, rfl, by
        rw [List.append_nil]
        exact h.hangsUp hprogress hstage⟩
  | ends hprogress hends =>
      exact ⟨_, xs, stints, pending, rfl, by
        rw [List.append_nil]
        exact h.ends hends⟩

end Run.Paced

namespace Farm

variable {f f' : Farm} {m : Move} {past : List Mark} {r : RunId} {run : Run}

/-- The tasks of all runs of a farm are sent one after the other, and no task is sent twice. -/
structure Paced (f : Farm) (past : List Mark) : Prop extends Stocked f past where
  custody : ∃ parcels, f.Custody parcels
  inStep : f.exchange.InStep
  runs : ∀ (r : RunId) (run : Run), f.runs[r]? = some run →
    ∃ t xs stints pending, run.Paced (eventsOf r past) t xs stints pending
  fresh : ∀ r : RunId, f.runs[r]? = none → eventsOf r past = []
  /-- A task that is offered was not sent yet. -/
  unsent : ∀ (r : RunId) (run : Run) (node : Nat) (task : Task), f.runs[r]? = some run →
    run.progress = .underWay → run.walk.stage = .offering node task →
    ∀ other time, SentAt past other time → other.id ≠ task.id

theorem paced_opened (naming : Naming) (settings : Settings) (books : Bookkeeper) :
    (openedWith naming settings books).Paced [] :=
  { stocked_opened naming settings books with
    custody := ⟨_, custody_opened naming settings books⟩
    inStep := Exchange.inStep_opened settings.queue
    runs := by simp [openedWith]
    fresh := fun _ _ => rfl
    unsent := by simp [openedWith] }

theorem Paced.sendsAtOnce (h : f.Paced past) : f.SendsAtOnce := by
  intro r run node task x hrun hprogress hstage hsend
  obtain ⟨parcels, hcustody⟩ := h.custody
  have hfits := hcustody.fits r run hrun hprogress
  rw [hstage] at hfits
  obtain ⟨-, ⟨hrefused, -⟩ | ⟨haccepted, -⟩⟩ :=
    hcustody.tracked.attemptSend? hfits.1 hfits.2.2 hsend
  · cases hrefused
  · cases haccepted

/-- A task that a move sends has a name of its own. -/
theorem Paced.sent_new (h : f.Paced past) {task : Task} {time : Nat}
    (hsent : SentAt (f.marks m) task time) :
    f.Issued task.id ∧ ∀ other time', SentAt past other time' → other.id ≠ task.id := by
  obtain ⟨-, r, run, node, x, -, hrun, hprogress, hstage, -⟩ := sentAt_marks hsent
  obtain ⟨parcels, hcustody⟩ := h.custody
  have hfits := hcustody.fits r run hrun hprogress
  rw [hstage] at hfits
  exact ⟨hfits.2.1, h.unsent r run node task hrun hprogress hstage⟩

/-- No two runs offer tasks of one name, so what one of them sends is new to the other. -/
theorem Paced.unsent_move (h : f.Paced past) (hids : Function.Injective f.naming.task)
    (hmove : f.move? m = some f') (hrun : f'.runs[r]? = some run)
    (hprogress : run.progress = .underWay) {node : Nat} {task : Task}
    (hstage : run.walk.stage = .offering node task) {other : Task} {time : Nat}
    (hsent : SentAt (past ++ f.marks m) other time) : other.id ≠ task.id := by
  have hstrides := strides_move? hmove r
  rw [hrun] at hstrides
  rcases hstrides.offering hprogress hstage with ⟨hsame, hnone⟩ | hfresh
  · rcases sentAt_append.mp hsent with hold | hnew
    · exact h.unsent r run node task hsame hprogress hstage other time hold
    · obtain ⟨-, r', run', node', x, rfl, hrun', hprogress', hstage', hsend⟩ := sentAt_marks hnew
      have hne : r' ≠ r := by
        rintro rfl
        rw [marks_sends hrun' hprogress' hstage' hsend] at hnone
        cases (eventsOf_self _ _ _).symm.trans hnone
      obtain ⟨parcels, hcustody⟩ := h.custody
      exact fun hid => hcustody.offeredOnce r run node task hsame hprogress hstage
        ⟨r', run', node', other, hne, hrun', hprogress', hstage', hid⟩
  · have hissued : f.Issued other.id := by
      rcases sentAt_append.mp hsent with hold | hnew
      · exact h.issued other time hold
      · exact (h.sent_new hnew).1
    obtain ⟨k, hk, hname⟩ := hissued
    intro hid
    exact absurd (hids (hname.symm.trans (hid.trans hfresh))) (Nat.ne_of_lt hk)

theorem Paced.move (h : f.Paced past) (hids : Function.Injective f.naming.task)
    (hmove : f.move? m = some f') : f'.Paced (past ++ f.marks m) := by
  have hstocked := h.toStocked.move h.sendsAtOnce (fun _ _ => h.sent_new) hmove
  refine { hstocked with custody := ?_, inStep := ?_, runs := ?_, fresh := ?_, unsent := ?_ }
  · obtain ⟨parcels, hcustody⟩ := h.custody
    exact hcustody.move hids h.inStep hmove
  · exact kept_move? Exchange.lasting_inStep h.inStep hmove
  · intro r run hrun
    have hstrides := strides_move? hmove r
    rw [hrun] at hstrides
    rw [eventsOf_append]
    cases hold : f.runs[r]? with
    | none =>
        rw [hold] at hstrides
        rw [h.fresh r hold, hstrides.events_eq_nil]
        generalize eventsOf r (f.marks m) = events at hstrides
        cases hstrides with
        | begins hparse expression session =>
            obtain ⟨t, ht⟩ := Arena.exists_shows_of_parse hparse
            exact ⟨t, [], [], none, Run.Paced.begun ht f.settings expression session⟩
    | some old =>
        rw [hold] at hstrides
        obtain ⟨t, xs, stints, pending, hpaced⟩ := h.runs r old hold
        obtain ⟨run', xs', stints', pending', he, hpaced'⟩ := hpaced.strides h.toStocked hstrides
        obtain rfl := Option.some.inj he
        exact ⟨t, xs', stints', pending', hpaced'⟩
  · intro r hnone
    have hstrides := strides_move? hmove r
    rw [hnone] at hstrides
    cases hold : f.runs[r]? with
    | none =>
        rw [hold] at hstrides
        rw [eventsOf_append, h.fresh r hold, hstrides.events_eq_nil]
        rfl
    | some old =>
        rw [hold] at hstrides
        obtain ⟨run', he⟩ := hstrides.exists_some
        cases he
  · intro r run node task hrun hprogress hstage other time
    exact h.unsent_move hids hmove hrun hprogress hstage

theorem Paced.play (h : f.Paced past) (hids : Function.Injective f.naming.task)
    {moves : List Move} (hplay : f.play? moves = some f') :
    f'.Paced (past ++ f.timeline moves) := by
  induction moves generalizing f past with
  | nil =>
      rw [← Option.some.inj hplay, timeline, List.append_nil]
      exact h
  | cons m rest ih =>
      obtain ⟨next, hmove, hrest⟩ := Option.bind_eq_some_iff.mp hplay
      have hnext := h.move hids hmove
      rw [← naming_move? hmove] at hids
      have hend := ih hnext hids hrest
      rwa [timeline_cons hmove, ← List.append_assoc]

end Farm

end TaskFarm
