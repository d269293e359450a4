import TaskFarm.Simulation.Fault

/-!
# A walk against a scripted responder

A rehearsal runs walks of one plan against a single responder that follows a script, on a clock
that jumps to the next timer when nobody can go on.  The walk goes first; the two then take turns,
each going on until it has to wait for the other or for the clock.
-/

namespace TaskFarm.Simulation

inductive Responder where
  | receiving
  | acting (task : Task) (replies : List Reply)
  /-- Waiting for the clock before the given replies. -/
  | paused (wakeAt : Nat) (task : Task) (replies : List Reply)
  /-- Waiting for room for a result. -/
  | sending (task : Task) (replies : List Reply)
  | ended

structure Rehearsal where
  plan : Plan
  walk : Walk
  tasks : Channel Unit Task
  results : Channel Unit TaskResult
  /-- No result is sent any more. -/
  hungUp : Bool
  responder : Responder
  /-- The replies to the tasks that are still to come. -/
  script : List (List Reply)
  /-- The tasks that the responder received. -/
  log : Array Task
  nextId : Nat
  now : Nat

/-- How a run of a walk ended; no outcome means that it took too long. -/
structure RunReport where
  outcome : Option (Except EvalError Float)
  resolved : Array (Option Float)
  emitted : Nat

namespace Rehearsal

/-- The room for results that wait to be read. -/
def resultCapacity : Nat := 64

/-- The time after which a run is given up. -/
def runLimit : Nat := 3600000

/-- An id that no task of a rehearsal gets. -/
def foreignId : TaskId :=
  ⟨Nat.pow 2 128⟩

def start (plan : Plan) (script : List (List Reply)) : Rehearsal :=
  { plan, script
    walk := plan.start
    tasks := .empty 1
    results := .empty resultCapacity
    hungUp := false
    responder := .receiving
    log := #[]
    nextId := 0
    now := 0 }

/-- The responder sends no further results. -/
def hangUp (r : Rehearsal) : Rehearsal :=
  { r with hungUp := true }

def shut (r : Rehearsal) : Rehearsal :=
  { r with hungUp := true, tasks := r.tasks.discard, responder := .ended }

/-- The responder sends a result and goes on with its replies, once there is room. -/
def deliver (r : Rehearsal) (task : Task) (replies : List Reply) (result : TaskResult) :
    Rehearsal :=
  if r.hungUp then
    { r with responder := .acting task replies }
  else
    match r.results.offer () result with
    | (.waiting, results) => { r with results, responder := .sending task replies }
    | (_, results) => { r with results, responder := .acting task replies }

/-- The id of the task that was received before the last one. -/
def previousId (r : Rehearsal) : TaskId :=
  if r.log.size < 2 then
    foreignId
  else
    match r.log[r.log.size - 2]? with
    | some task => task.id
    | none => foreignId

def perform (r : Rehearsal) (task : Task) (replies : List Reply) : Reply → Rehearsal
  | .compute =>
    { r with
      responder :=
        .paused (r.now + task.cost) task (.answer task.compute :: replies) }
  | .answer outcome => r.deliver task replies (.ofOutcome task.id outcome)
  | .foreign outcome => r.deliver task replies (.ofOutcome foreignId outcome)
  | .previous value => r.deliver task replies (.success r.previousId value)
  | .sleep duration => { r with responder := .paused (r.now + duration) task replies }
  | .hangUp => { r.hangUp with responder := .acting task replies }
  | .close => r.shut

/-- One step of the responder, unless it has to wait. -/
def responderStep? (r : Rehearsal) : Option Rehearsal :=
  match r.responder with
  | .receiving =>
    r.tasks.take?.map fun (task, tasks) =>
      { r with
        tasks
        log := r.log.push task
        script := r.script.tail
        responder := .acting task (r.script.headD [.compute]) }
  | .acting _ [] => some { r with responder := .receiving }
  | .acting task (reply :: replies) => some (r.perform task replies reply)
  | .paused wakeAt task replies =>
    if wakeAt ≤ r.now then some { r with responder := .acting task replies } else none
  | .sending task replies =>
    (r.results.resume? ()).map fun (_, results) =>
      { r with results, responder := .acting task replies }
  | .ended => none

/-- One step of the walk, unless it has to wait or is over. -/
def walkStep? (r : Rehearsal) : Option Rehearsal :=
  match r.walk.stage with
  | .walking =>
    let walk := r.plan.proceed ⟨r.nextId⟩ r.walk
    match walk.stage with
    | .offering _ _ => some { r with walk, nextId := r.nextId + 1 }
    | _ => some { r with walk }
  | .offering _ task =>
    match r.tasks.attempt? () task with
    | some (.accepted, tasks) => some { r with tasks, walk := r.walk.accepted }
    | some (.refused, tasks) => some { r with tasks, walk := r.walk.refused }
    | some (.waiting, tasks) => some { r with tasks }
    | none => none
  | .awaiting _ _ =>
    match r.results.take? with
    | some (result, results) => some { r with results, walk := r.walk.received result }
    | none => if r.hungUp then some { r with walk := r.walk.hungUp } else none
  | .finished _ | .stuck => none

/-- A bound on the steps of a turn: every reply and every task takes a few. -/
def patience (r : Rehearsal) : Nat :=
  let ahead :=
    match r.responder with
    | .acting _ replies | .paused _ _ replies | .sending _ replies => replies.length
    | _ => 0
  8 * (ahead + r.script.flatten.length + r.script.length + r.plan.arena.size + 80)

/-- The walk goes on until it has to wait or is over. -/
def walkTurn (r : Rehearsal) : Rehearsal :=
  settleBy walkStep? r.patience r

/-- The responder goes on until it has to wait. -/
def responderTurn (r : Rehearsal) : Rehearsal :=
  settleBy responderStep? r.patience r

/-- The time at which the responder goes on by itself. -/
def nextTimer? (r : Rehearsal) : Option Nat :=
  match r.responder with
  | .paused wakeAt _ _ => some wakeAt
  | _ => none

/-- Give the walk up: what it waits to send is withdrawn. -/
def abandon (r : Rehearsal) : Rehearsal :=
  { r with tasks := r.tasks.withdraw () }

/-- Somebody can go on without the clock. -/
def canGoOn (r : Rehearsal) : Bool :=
  r.walkStep?.isSome || r.responderStep?.isSome

/-- Take turns until the walk is over or the deadline has come; what would happen at the very
deadline comes too late.  The flag says that the walk is over. -/
def race (deadline : Nat) : Nat → Rehearsal → Bool × Rehearsal
  | 0, r => (false, r)
  | fuel + 1, r =>
    let r := r.walkTurn
    if r.walk.isOver then
      (true, r)
    else
      let r := r.responderTurn
      if r.canGoOn then
        race deadline fuel r
      else
        match r.nextTimer? with
        | some wakeAt =>
          if wakeAt < deadline then
            race deadline fuel { r with now := wakeAt }
          else
            (false, { r with now := deadline })
        | none => (false, { r with now := deadline })

/-- The report of a run that ended in the given state. -/
def report (isOver : Bool) (r : Rehearsal) : RunReport :=
  { outcome :=
      match isOver, r.walk.stage with
      | true, .finished outcome => some outcome
      | _, _ => none
    resolved := r.walk.resolved
    emitted := r.walk.emitted.size }

/-- One run of the walk to its end or its time limit. -/
def run (r : Rehearsal) : RunReport × Rehearsal :=
  let (isOver, r) := race (r.now + runLimit) (4 * r.patience) r
  (report isOver r, if isOver then r else r.abandon)

/-- Several runs, one after the other.  The next walk either keeps what the last one found or
begins anew. -/
def runs (keep : Bool) : Nat → Rehearsal → List RunReport × Rehearsal
  | 0, r => ([], r)
  | count + 1, r =>
    let (report, r) := r.run
    if count = 0 then
      ([report], r)
    else
      let walk := if keep then r.plan.restart r.walk else r.plan.start
      let (reports, r) := runs keep count { r with walk }
      (report :: reports, r)

end Rehearsal

end TaskFarm.Simulation
