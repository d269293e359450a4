import TaskFarm.Proofs.Exchange.Whereabouts
import TaskFarm.Proofs.Farm.Sound

/-!
# Who has the tasks of a farm

A task that is away is in the queue or with one worker.  Since a walk sends its next task only after
the result of the last one has come, each run under way has at most one task somewhere, and what its
walk does tells which one.
-/

namespace TaskFarm

/-- The task that a worker has. -/
def Occupation.task? : Occupation → Option TaskId
  | .computing task _ => some task.id
  | .submitting id _ => some id
  | _ => none

/-- Whoever can have a task that is away. -/
inductive Keeper where
  | queue
  | worker (w : WorkerId)

/-- The task of a session while the walk of its run is in this stage.  A task that is offered has a
name that was given to no task at the exchange. -/
def Stage.Fits (parcels : SessionId → Option Parcel) (issued : TaskId → Prop) (s : SessionId) :
    Stage → Prop
  | .walking => parcels s = none
  | .offering _ task =>
    parcels s = none ∧ issued task.id ∧ ∀ s' p, parcels s' = some p → p.id ≠ task.id
  | .awaiting _ id => ∃ place, parcels s = some ⟨id, place⟩
  | .finished _ | .stuck => True

/-- Tasks keep their ids as they move on; those that nobody wants may go. -/
def Onward (wanted : SessionId → Prop) (parcels parcels' : SessionId → Option Parcel) : Prop :=
  ∀ s, parcels' s = parcels s ∨ ∃ id place, parcels s = some ⟨id, place⟩ ∧
    ((∃ place', parcels' s = some ⟨id, place'⟩) ∨ parcels' s = none ∧ ¬wanted s)

theorem Onward.refl (wanted : SessionId → Prop) (parcels : SessionId → Option Parcel) :
    Onward wanted parcels parcels :=
  fun _ => .inl rfl

theorem onward_update {wanted : SessionId → Prop} {parcels : SessionId → Option Parcel}
    {s : SessionId} {id : TaskId} {place : Whereabouts} {p? : Option Parcel}
    (hp : parcels s = some ⟨id, place⟩)
    (hnext : (∃ place', p? = some ⟨id, place'⟩) ∨ p? = none ∧ ¬wanted s) :
    Onward wanted parcels (Function.update parcels s p?) := by
  intro s'
  by_cases he : s' = s
  · subst he
    rw [Function.update_self]
    exact .inr ⟨id, place, hp, hnext⟩
  · rw [Function.update_of_ne he]
    exact .inl rfl

/-- No ids come in as tasks move on. -/
theorem Onward.id_eq {wanted : SessionId → Prop} {parcels parcels' : SessionId → Option Parcel}
    (h : Onward wanted parcels parcels') {s : SessionId} {p' : Parcel}
    (hp' : parcels' s = some p') : ∃ p, parcels s = some p ∧ p.id = p'.id := by
  rcases h s with hsame | ⟨id, place, hp, ⟨place', hnext⟩ | ⟨hnone, -⟩⟩
  · exact ⟨p', hsame.symm.trans hp', rfl⟩
  · obtain rfl : ⟨id, place'⟩ = p' := Option.some.inj (hnext.symm.trans hp')
    exact ⟨_, hp, rfl⟩
  · cases hnone.symm.trans hp'

/-- A walk goes on to know where its task is. -/
theorem Stage.Fits.onward {parcels parcels' : SessionId → Option Parcel}
    {issued issued' : TaskId → Prop} {wanted : SessionId → Prop} {s : SessionId} {stage : Stage}
    (h : stage.Fits parcels issued s) (honward : Onward wanted parcels parcels')
    (hwanted : wanted s) (hissued : ∀ id, issued id → issued' id) :
    stage.Fits parcels' issued' s := by
  have hnone : parcels s = none → parcels' s = none := by
    intro hp
    rcases honward s with hsame | ⟨id, place, hsome, -⟩
    · exact hsame.trans hp
    · cases hp.symm.trans hsome
  cases stage with
  | walking => exact hnone h
  | offering node task =>
      obtain ⟨hp, hid, hunsent⟩ := h
      refine ⟨hnone hp, hissued _ hid, fun s' p' hp' => ?_⟩
      obtain ⟨p, hbefore, hsame⟩ := honward.id_eq hp'
      exact hsame ▸ hunsent s' p hbefore
  | awaiting node id =>
      obtain ⟨place, hp⟩ := h
      rcases honward s with hsame | ⟨id', place', hsome, ⟨next, hnext⟩ | ⟨-, hunwanted⟩⟩
      · exact ⟨place, hsame.trans hp⟩
      · obtain rfl : id' = id := (Parcel.mk.inj (Option.some.inj (hsome.symm.trans hp))).1
        exact ⟨next, hnext⟩
      · exact absurd hwanted hunwanted
  | finished outcome => trivial
  | stuck => trivial

/-- A walk does not notice what becomes of the task of another session, unless that gets the name
of the task that the walk offers. -/
theorem Stage.Fits.others {parcels parcels' : SessionId → Option Parcel} {issued : TaskId → Prop}
    {s s₀ : SessionId} {stage : Stage} (h : stage.Fits parcels issued s) (hne : s ≠ s₀)
    (hothers : ∀ s', s' ≠ s₀ → parcels' s' = parcels s')
    (hnew : ∀ node task, stage = .offering node task → ∀ p, parcels' s₀ = some p →
      p.id ≠ task.id) :
    stage.Fits parcels' issued s := by
  have hsame := hothers s hne
  cases stage with
  | walking => exact hsame.trans h
  | offering node task =>
      refine ⟨hsame.trans h.1, h.2.1, fun s' p hp => ?_⟩
      by_cases he : s' = s₀
      · exact hnew node task rfl p (he ▸ hp)
      · exact h.2.2 s' p ((hothers s' he).symm.trans hp)
  | awaiting node id =>
      obtain ⟨place, hp⟩ := h
      exact ⟨place, hsame.trans hp⟩
  | finished outcome => trivial
  | stuck => trivial

namespace Farm

/-- The results of a session are wanted as long as the run that has it is under way. -/
def Wants (f : Farm) (s : SessionId) : Prop :=
  ∃ (r : RunId) (run : Run), f.runs[r]? = some run ∧ run.progress = .underWay ∧ run.session = s

/-- The tasks in the queue. -/
def queued (f : Farm) : List TaskId :=
  f.exchange.queue.buffer.map Task.id

/-- Who has a task that is away. -/
def Keeps (f : Farm) (id : TaskId) : Keeper → Prop
  | .queue => id ∈ f.queued
  | .worker w => (f.workers[w]?).bind (fun worker => worker.occupation.task?) = some id

/-- The id was given to some task. -/
def Issued (f : Farm) (id : TaskId) : Prop :=
  ∃ k < f.nextTask, id = f.naming.task k

/-- Another run than this one offers a task of this id. -/
def OffersElsewhere (f : Farm) (r : RunId) (id : TaskId) : Prop :=
  ∃ (r' : RunId) (run : Run) (node : Nat) (task : Task), r' ≠ r ∧ f.runs[r']? = some run ∧
    run.progress = .underWay ∧ run.walk.stage = .offering node task ∧ task.id = id

/-- The tasks that are away have one keeper each. -/
structure Holds (f : Farm) (parcels : SessionId → Option Parcel) : Prop where
  tracked : f.exchange.Tracked f.Wants parcels
  kept : ∀ id, (∃ s, parcels s = some ⟨id, .away⟩) ↔ ∃ k, f.Keeps id k
  sole : ∀ id k k', f.Keeps id k → f.Keeps id k' → k = k'
  queueOnce : f.queued.Nodup
  /-- No worker has to wait with its result. -/
  unhurried : ∀ worker ∈ f.workers, ∀ id s, worker.occupation ≠ .submitting id s

/-- The walk of each run under way knows where its task is. -/
structure Custody (f : Farm) (parcels : SessionId → Option Parcel) : Prop extends
    Holds f parcels where
  issued : ∀ s p, parcels s = some p → f.Issued p.id
  fits : ∀ (r : RunId) (run : Run), f.runs[r]? = some run → run.progress = .underWay →
    run.walk.stage.Fits parcels f.Issued run.session
  offeredOnce : ∀ (r : RunId) (run : Run) (node : Nat) (task : Task), f.runs[r]? = some run →
    run.progress = .underWay → run.walk.stage = .offering node task →
    ¬f.OffersElsewhere r task.id
  sessionOnce : ∀ (r r' : RunId) (run run' : Run), f.runs[r]? = some run →
    f.runs[r']? = some run' → run.progress = .underWay → run'.progress = .underWay →
    run.session = run'.session → r = r'

variable {f f' : Farm} {parcels parcels' : SessionId → Option Parcel} {r : RunId} {run run' : Run}
  {w : WorkerId} {worker worker' : Worker} {x : Exchange} {id : TaskId} {s : SessionId}

theorem custody_opened (naming : Naming) (settings : Settings) (books : Bookkeeper) :
    (openedWith naming settings books).Custody fun _ => none where
  tracked := (Exchange.tracked_opened settings.queue).mono (by simp [Wants, openedWith])
  kept id := by
    refine iff_of_false (by simp) ?_
    rintro ⟨_ | w, hk⟩
    · cases hk
    · simp [Keeps, openedWith] at hk
  sole := by
    rintro id (_ | w) k' hk -
    · cases hk
    · simp [Keeps, openedWith] at hk
  queueOnce := List.nodup_nil
  unhurried := by simp [openedWith]
  issued := by simp
  fits := by simp [openedWith]
  offeredOnce := by simp [openedWith]
  sessionOnce := by simp [openedWith]

/-! ## What custody depends on -/

/-- The part of a farm through which tasks go. -/
def floor (f : Farm) : Naming × Exchange × Array Run × Array Worker × Nat :=
  (f.naming, f.exchange, f.runs, f.workers, f.nextTask)

theorem Custody.of_floor (h : f.Custody parcels) (hfloor : f'.floor = f.floor) :
    f'.Custody parcels := by
  cases f
  cases f'
  simp only [floor, Prod.mk.injEq] at hfloor
  obtain ⟨rfl, rfl, rfl, rfl, rfl⟩ := hfloor
  exact { h with }

/-! ## Queue and workers -/

theorem away_update {p? : Option Parcel} (hbefore : ∀ id, parcels s ≠ some ⟨id, .away⟩)
    (hafter : ∀ id, p? ≠ some ⟨id, .away⟩) (s' : SessionId) (id : TaskId) :
    Function.update parcels s p? s' = some ⟨id, .away⟩ ↔ parcels s' = some ⟨id, .away⟩ := by
  by_cases he : s' = s
  · subst he
    rw [Function.update_self]
    exact iff_of_false (hafter id) (hbefore id)
  · rw [Function.update_of_ne he]

/-- All keepers keep what they have. -/
theorem Holds.carry (h : f.Holds parcels) (htracked : f'.exchange.Tracked f'.Wants parcels')
    (hqueue : f'.exchange.queue.buffer = f.exchange.queue.buffer)
    (hworkers : f'.workers = f.workers)
    (haway : ∀ s id, parcels' s = some ⟨id, .away⟩ ↔ parcels s = some ⟨id, .away⟩) :
    f'.Holds parcels' := by
  have hqueued : f'.queued = f.queued := congrArg (List.map Task.id) hqueue
  have hkeeps : f'.Keeps = f.Keeps := by
    funext id k
    cases k with
    | queue => simp only [Keeps, hqueued]
    | worker w => simp only [Keeps, hworkers]
  constructor
  · exact htracked
  · simp only [haway, hkeeps]
    exact h.kept
  · rw [hkeeps]
    exact h.sole
  · rw [hqueued]
    exact h.queueOnce
  · rw [hworkers]
    exact h.unhurried

/-- A task gets another keeper, or its first one, or none any more. -/
theorem Holds.hand (h : f.Holds parcels) (id : TaskId) (k? : Option Keeper)
    (htracked : f'.exchange.Tracked f'.Wants parcels')
    (haway : ∀ s i, i ≠ id → (parcels' s = some ⟨i, .away⟩ ↔ parcels s = some ⟨i, .away⟩))
    (hnext : (∃ s, parcels' s = some ⟨id, .away⟩) ↔ ∃ k, k? = some k)
    (hkeeps : ∀ i k, f'.Keeps i k ↔ (i ≠ id ∧ f.Keeps i k) ∨ (i = id ∧ k? = some k))
    (honce : f'.queued.Nodup)
    (hunhurried : ∀ worker ∈ f'.workers, ∀ i s, worker.occupation ≠ .submitting i s) :
    f'.Holds parcels' := by
  constructor
  · exact htracked
  · intro i
    by_cases he : i = id
    · subst he
      simp [hkeeps, hnext]
    · simp [hkeeps, haway _ i he, he, h.kept i]
  · intro i k k' hk hk'
    rcases (hkeeps i k).mp hk with ⟨hne, hold⟩ | ⟨he, hnew⟩
    · rcases (hkeeps i k').mp hk' with ⟨-, hold'⟩ | ⟨he', -⟩
      · exact h.sole i k k' hold hold'
      · exact absurd he' hne
    · rcases (hkeeps i k').mp hk' with ⟨hne', -⟩ | ⟨-, hnew'⟩
      · exact absurd he hne'
      · exact Option.some.inj (hnew.symm.trans hnew')
  · exact honce
  · exact hunhurried

/-- A relay puts its task into the queue. -/
theorem Holds.puts (h : f.Holds parcels) {task : Task}
    (hp : parcels s = some ⟨task.id, .hand⟩)
    (htracked : x.Tracked f.Wants (Function.update parcels s (some ⟨task.id, .away⟩)))
    (hqueue : x.queue.buffer = f.exchange.queue.buffer ++ [task]) :
    ({ f with exchange := x } : Farm).Holds
      (Function.update parcels s (some ⟨task.id, .away⟩)) := by
  have hqueued : ({ f with exchange := x } : Farm).queued = f.queued ++ [task.id] := by
    simp [Farm.queued, hqueue]
  have hnew : ∀ k, ¬f.Keeps task.id k := by
    intro k hk
    obtain ⟨s', hp'⟩ := (h.kept task.id).mpr ⟨k, hk⟩
    obtain rfl := h.tracked.once s' s _ _ hp' hp rfl
    cases hp'.symm.trans hp
  refine h.hand task.id (some .queue) htracked ?_ ?_ ?_ ?_ h.unhurried
  · intro s' i hne
    by_cases he : s' = s
    · subst he
      simp [hp, Ne.symm hne]
    · rw [Function.update_of_ne he]
  · exact iff_of_true ⟨s, Function.update_self _ _ _⟩ ⟨.queue, rfl⟩
  · rintro i (_ | w)
    · simp only [Keeps, hqueued, List.mem_append, List.mem_singleton]
      by_cases he : i = task.id
      · simp [he]
      · simp [he]
    · by_cases he : i = task.id
      · subst he
        simpa [Keeps] using hnew (.worker w)
      · simp [Keeps, he]
  · have hperm : (f.queued ++ [task.id]).Perm (task.id :: f.queued) :=
      List.perm_append_singleton _ _
    rw [hqueued]
    exact hperm.nodup_iff.mpr (List.nodup_cons.mpr ⟨hnew .queue, h.queueOnce⟩)

theorem keeps_setWorker (hw : f.workers[w]? = some worker) (worker' : Worker) (w' : WorkerId) :
    (f.setWorker w worker').Keeps id (.worker w') ↔
      (w' = w ∧ worker'.occupation.task? = some id) ∨ (w' ≠ w ∧ f.Keeps id (.worker w')) := by
  obtain ⟨hlt, -⟩ := Array.getElem?_eq_some_iff.mp hw
  by_cases he : w' = w
  · subst he
    simp [Keeps, setWorker, hlt]
  · simp [Keeps, setWorker, he, Ne.symm he]

theorem keeps_iff (hw : f.workers[w]? = some worker) :
    f.Keeps id (.worker w) ↔ worker.occupation.task? = some id := by
  simp [Keeps, hw]

/-- A worker does something else than before, and does not wait with a result. -/
theorem Holds.unhurried_setWorker (h : f.Holds parcels)
    (hworker : ∀ id s, worker'.occupation ≠ .submitting id s) :
    ∀ found ∈ (f.setWorker w worker').workers, ∀ id s, found.occupation ≠ .submitting id s := by
  intro found hfound
  rcases Array.mem_or_eq_of_mem_setIfInBounds hfound with hold | rfl
  · exact h.unhurried found hold
  · exact hworker

/-- The workers are others, but the tasks that they have are the same. -/
theorem Holds.setWorkers (h : f.Holds parcels) {workers : Array Worker}
    (hkeeps : ∀ w id, ({ f with workers } : Farm).Keeps id (.worker w) ↔ f.Keeps id (.worker w))
    (hunhurried : ∀ worker ∈ workers, ∀ id s, worker.occupation ≠ .submitting id s) :
    ({ f with workers } : Farm).Holds parcels := by
  have hsame : ∀ id k, ({ f with workers } : Farm).Keeps id k ↔ f.Keeps id k := by
    rintro id (_ | w)
    · rfl
    · exact hkeeps w id
  constructor
  · exact h.tracked
  · simp only [hsame]
    exact h.kept
  · simp only [hsame]
    exact h.sole
  · exact h.queueOnce
  · exact hunhurried

/-- A worker that has no task does something else. -/
theorem Holds.setWorker (h : f.Holds parcels) (hw : f.workers[w]? = some worker)
    (hbefore : worker.occupation.task? = none) (hafter : worker'.occupation.task? = none) :
    (f.setWorker w worker').Holds parcels := by
  refine h.setWorkers (fun w' id => ?_) (h.unhurried_setWorker ?_)
  · change (f.setWorker w worker').Keeps id (.worker w') ↔ _
    rw [keeps_setWorker hw, hafter]
    by_cases he : w' = w
    · subst he
      simp [keeps_iff hw, hbefore]
    · simp [he]
  · intro id s hsubmitting
    rw [hsubmitting] at hafter
    cases hafter

/-- A worker takes the oldest task out of the queue. -/
theorem Holds.fetches (h : f.Holds parcels) (hw : f.workers[w]? = some worker)
    (hbefore : worker.occupation.task? = none) {task : Task} {doneAt : Nat}
    (hafter : worker'.occupation = .computing task doneAt) (htracked : x.Tracked f.Wants parcels)
    (hqueue : f.exchange.queue.buffer = task :: x.queue.buffer) :
    (({ f with exchange := x } : Farm).setWorker w worker').Holds parcels := by
  have hqueued : f.queued =
      task.id :: (({ f with exchange := x } : Farm).setWorker w worker').queued := by
    simp [Farm.queued, hqueue, Farm.setWorker]
  have honce := h.queueOnce
  rw [hqueued, List.nodup_cons] at honce
  have hfirst : f.Keeps task.id .queue := by
    change task.id ∈ f.queued
    rw [hqueued]
    exact List.mem_cons_self
  have hnobody : ∀ w', ¬f.Keeps task.id (.worker w') := fun w' hw' =>
    nomatch h.sole task.id _ _ hfirst hw'
  have hidle : ∀ i, ¬f.Keeps i (.worker w) := by
    intro i
    rw [keeps_iff hw, hbefore]
    exact nofun
  refine h.hand task.id (some (.worker w)) htracked (fun _ _ _ => Iff.rfl) ?_ ?_ honce.2
    (h.unhurried_setWorker ?_)
  · exact iff_of_true ((h.kept task.id).mpr ⟨.queue, hfirst⟩) ⟨.worker w, rfl⟩
  · rintro i (_ | w')
    · by_cases he : i = task.id
      · subst he
        simpa [Keeps] using honce.1
      · simp [Keeps, hqueued, he]
    · have hothers : ({ f with exchange := x } : Farm).Keeps i (.worker w') ↔
        f.Keeps i (.worker w') := Iff.rfl
      rw [keeps_setWorker (f := { f with exchange := x }) hw, hafter, hothers]
      by_cases hmine : w' = w
      · subst hmine
        simp [hidle, Occupation.task?, eq_comm]
      · by_cases he : i = task.id
        · subst he
          simp [hmine, hnobody w', Ne.symm hmine]
        · simp [hmine, he]
  · rw [hafter]
    exact nofun

/-- A worker is rid of its task, which is not away any more. -/
theorem Holds.submits (h : f.Holds parcels) (hw : f.workers[w]? = some worker)
    (hbefore : worker.occupation.task? = some id) (hafter : worker'.occupation.task? = none)
    (hp : parcels s = some ⟨id, .away⟩) {p? : Option Parcel}
    (hgone : ∀ id, p? ≠ some ⟨id, .away⟩)
    (htracked : x.Tracked f.Wants (Function.update parcels s p?))
    (hqueue : x.queue = f.exchange.queue) :
    (({ f with exchange := x } : Farm).setWorker w worker').Holds
      (Function.update parcels s p?) := by
  have hqueued : (({ f with exchange := x } : Farm).setWorker w worker').queued = f.queued := by
    simp [Farm.queued, hqueue, Farm.setWorker]
  have hmine : f.Keeps id (.worker w) := (keeps_iff hw).mpr hbefore
  refine h.hand id none htracked ?_ ?_ ?_ (hqueued ▸ h.queueOnce) (h.unhurried_setWorker ?_)
  · intro s' i hne
    by_cases he : s' = s
    · subst he
      simp [hp, hgone, Ne.symm hne]
    · rw [Function.update_of_ne he]
  · refine iff_of_false ?_ nofun
    rintro ⟨s', hp'⟩
    by_cases he : s' = s
    · subst he
      rw [Function.update_self] at hp'
      exact hgone id hp'
    · rw [Function.update_of_ne he] at hp'
      exact he (h.tracked.once s' s _ _ hp' hp rfl)
  · rintro i (_ | w')
    · by_cases he : i = id
      · subst he
        have hunqueued : i ∉ f.queued := fun hi => nomatch h.sole i .queue _ hi hmine
        simp [Keeps, hqueued, hunqueued]
      · simp [Keeps, hqueued, he]
    · have hothers : ({ f with exchange := x } : Farm).Keeps i (.worker w') ↔
        f.Keeps i (.worker w') := Iff.rfl
      rw [keeps_setWorker (f := { f with exchange := x }) hw, hafter, hothers]
      by_cases hworker : w' = w
      · subst hworker
        simp [keeps_iff hw, hbefore, eq_comm]
      · by_cases he : i = id
        · subst he
          have hother : ¬f.Keeps i (.worker w') := fun hi =>
            hworker (Keeper.worker.inj (h.sole i _ _ hi hmine))
          simp [hworker, hother]
        · simp [hworker, he]
  · intro id s hsubmitting
    rw [hsubmitting] at hafter
    cases hafter

/-! ## Runs -/

/-- Tasks move on, and no run does anything. -/
theorem Custody.carry (h : f.Custody parcels) (hholds : f'.Holds parcels')
    (honward : Onward f.Wants parcels parcels') (hruns : f'.runs = f.runs)
    (hissued : ∀ id, f.Issued id → f'.Issued id) : f'.Custody parcels' := by
  constructor
  · exact hholds
  · intro s p' hp'
    obtain ⟨p, hp, hid⟩ := honward.id_eq hp'
    exact hid ▸ hissued p.id (h.issued s p hp)
  · intro r run hrun hprogress
    rw [hruns] at hrun
    exact (h.fits r run hrun hprogress).onward honward ⟨r, run, hrun, hprogress, rfl⟩ hissued
  · simp only [OffersElsewhere, hruns]
    exact h.offeredOnce
  · rw [hruns]
    exact h.sessionOnce

/-- A task of this id is offered by no other run, if one was sent already. -/
theorem Custody.not_offersElsewhere (h : f.Custody parcels) {p : Parcel}
    (hp : parcels s = some p) (r : RunId) : ¬f.OffersElsewhere r p.id := by
  rintro ⟨r', run', node, task, -, hrun', hprogress', hstage, hid⟩
  have hfits := h.fits r' run' hrun' hprogress'
  rw [hstage] at hfits
  exact hfits.2.2 s p hp hid.symm

theorem wants_setRun (hrun : f.runs[r]? = some run) (hprogress : run.progress = .underWay)
    (hsession : run'.session = run.session) (h : (f.setRun r run').Wants s) : f.Wants s := by
  obtain ⟨r', found, hfound, hunderWay, rfl⟩ := h
  rcases setRun_cases hrun hfound with ⟨-, rfl⟩ | ⟨-, hold⟩
  · exact ⟨r, run, hrun, hprogress, hsession.symm⟩
  · exact ⟨r', found, hold, hunderWay, rfl⟩

/-- A run under way goes on or ends, and something becomes of its own task. -/
theorem Custody.setRun (h : f.Custody parcels) (hrun : f.runs[r]? = some run)
    (hprogress : run.progress = .underWay) (hsession : run'.session = run.session)
    (hholds : (({ f with exchange := x } : Farm).setRun r run').Holds parcels')
    (hothers : ∀ s, s ≠ run.session → parcels' s = parcels s)
    (hids : ∀ p, parcels' run.session = some p → f.Issued p.id ∧ ¬f.OffersElsewhere r p.id)
    (hfits : run'.progress = .underWay → run'.walk.stage.Fits parcels' f.Issued run.session)
    (hoffers : run'.progress = .underWay → ∀ node task, run'.walk.stage = .offering node task →
      ¬f.OffersElsewhere r task.id) :
    (({ f with exchange := x } : Farm).setRun r run').Custody parcels' := by
  have hcases : ∀ {r' : RunId} {found : Run},
      (({ f with exchange := x } : Farm).setRun r run').runs[r']? = some found →
      (r' = r ∧ found = run') ∨ (r' ≠ r ∧ f.runs[r']? = some found) :=
    fun hfound => setRun_cases (f := { f with exchange := x }) hrun hfound
  have hapart : ∀ {r' : RunId} {found : Run}, r' ≠ r → f.runs[r']? = some found →
      found.progress = .underWay → found.session ≠ run.session := fun hne hfound hunderWay he =>
    hne (h.sessionOnce _ _ _ _ hfound hrun hunderWay hprogress he)
  constructor
  · exact hholds
  · intro s p hp
    by_cases he : s = run.session
    · exact (hids p (he ▸ hp)).1
    · exact h.issued s p ((hothers s he).symm.trans hp)
  · intro r' found hfound hunderWay
    rcases hcases hfound with ⟨rfl, rfl⟩ | ⟨hne, hold⟩
    · rw [hsession]
      exact hfits hunderWay
    · refine (h.fits r' found hold hunderWay).others (hapart hne hold hunderWay) hothers ?_
      intro node task hstage p hp he
      exact (hids p hp).2 ⟨r', found, node, task, hne, hold, hunderWay, hstage, he.symm⟩
  · rintro r₁ run₁ node₁ task₁ hrun₁ hunderWay₁ hstage₁
      ⟨r₂, run₂, node₂, task₂, hne, hrun₂, hunderWay₂, hstage₂, hid⟩
    rcases hcases hrun₁ with ⟨rfl, rfl⟩ | ⟨hne₁, hold₁⟩
    · rcases hcases hrun₂ with ⟨he₂, -⟩ | ⟨hne₂, hold₂⟩
      · exact hne he₂
      · exact hoffers hunderWay₁ node₁ task₁ hstage₁
          ⟨r₂, run₂, node₂, task₂, hne₂, hold₂, hunderWay₂, hstage₂, hid⟩
    · rcases hcases hrun₂ with ⟨rfl, rfl⟩ | ⟨hne₂, hold₂⟩
      · exact hoffers hunderWay₂ node₂ task₂ hstage₂
          ⟨r₁, run₁, node₁, task₁, hne₁, hold₁, hunderWay₁, hstage₁, hid.symm⟩
      · exact h.offeredOnce r₁ run₁ node₁ task₁ hold₁ hunderWay₁ hstage₁
          ⟨r₂, run₂, node₂, task₂, hne, hold₂, hunderWay₂, hstage₂, hid⟩
  · intro r₁ r₂ run₁ run₂ hrun₁ hrun₂ hunderWay₁ hunderWay₂ hsame
    rcases hcases hrun₁ with ⟨rfl, rfl⟩ | ⟨hne₁, hold₁⟩
    · rcases hcases hrun₂ with ⟨rfl, -⟩ | ⟨hne₂, hold₂⟩
      · rfl
      · exact absurd (hsame.symm.trans hsession) (hapart hne₂ hold₂ hunderWay₂)
    · rcases hcases hrun₂ with ⟨rfl, rfl⟩ | ⟨hne₂, hold₂⟩
      · exact absurd (hsame.trans hsession) (hapart hne₁ hold₁ hunderWay₁)
      · exact h.sessionOnce r₁ r₂ run₁ run₂ hold₁ hold₂ hunderWay₁ hunderWay₂ hsame

end Farm

end TaskFarm
