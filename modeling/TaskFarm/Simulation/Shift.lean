import TaskFarm.Simulation.Fault

/-!
# Workers at a scripted supply

On a shift some workers look for their tasks in a script: each fetch takes the next item.  The clock
jumps from timer to timer up to the end of the shift; then the workers are dismissed, and the shift
is over when the last of them has stopped.  When several workers can go on at the same time, the
one that has waited longest goes first.
-/

namespace TaskFarm.Simulation

/-- A result that was handed in. -/
structure Submitted where
  time : Nat
  result : TaskResult
  /-- The result was not taken. -/
  rejected : Bool

structure Shift where
  policy : RetryPolicy
  /-- Whether a result is not taken, by the number of those handed in before and its task. -/
  refuses : Nat → TaskId → Bool
  /-- The items that are left; after them there is nothing. -/
  script : List Supply
  /-- The workers, the one that has waited longest first. -/
  workers : List Worker
  now : Nat
  /-- The times of the fetches, the latest first. -/
  fetches : List Nat
  /-- When a worker began to wait, and its misses so far; the latest first. -/
  pauses : List (Nat × Nat)
  /-- The results handed in, the latest first. -/
  submissions : List Submitted

namespace Shift

/-- A shift at its beginning. -/
def opened (count : Nat) (policy : RetryPolicy) (script : List Supply)
    (refuses : Nat → TaskId → Bool) : Shift :=
  { policy, refuses, script
    workers := List.replicate count .hired
    now := 0
    fetches := []
    pauses := []
    submissions := [] }

/-- A shift during which the results of some tasks are not taken. -/
def start (count : Nat) (policy : RetryPolicy) (script : List Supply) (rejects : List TaskId) :
    Shift :=
  opened count policy script fun _ id => rejects.contains id

def miss (s : Shift) (w : Worker) : Worker × Shift :=
  (w.missed s.policy s.now, { s with pauses := (s.now, w.nextMiss) :: s.pauses })

def fetch (s : Shift) (w : Worker) : Worker × Shift :=
  let item := s.script.headD .nothing
  let s := { s with script := s.script.tail, fetches := s.now :: s.fetches }
  match item with
  | .task task => (w.found task s.now, s)
  | .nothing | .failure => s.miss w
  | .silence => (w, s)
  | .breakdown => (w.crash, s)

def submit (s : Shift) (w : Worker) (task : Task) : Worker × Shift :=
  let submitted := ⟨s.now, task.result, s.refuses s.submissions.length task.id⟩
  (w.resumed, { s with submissions := submitted :: s.submissions })

/-- One step of a worker, unless it has to wait or has ended. -/
def workerStep? (s : Shift) (w : Worker) : Option (Worker × Shift) :=
  match w.occupation with
  | .ready => some (if w.dismissed then (w.stop, s) else s.fetch w.look)
  | .fetching => if w.dismissed then some (w.stop, s) else none
  | .computing task doneAt => if doneAt ≤ s.now then some (s.submit w task) else none
  | .pausing wakeAt =>
    if w.dismissed then some (w.stop, s)
    else if wakeAt ≤ s.now then some (w.resumed, s)
    else none
  | .submitting _ _ | .stopped | .crashed => none

/-- A bound on the steps of a turn: each item takes a worker two steps. -/
def patience (s : Shift) : Nat :=
  2 * s.script.length + 4

/-- Each of the given workers takes its turn, if it can; first those who waited on, then those who
made a step. -/
def turns (s : Shift) : List Worker → List Worker × List Worker × Shift
  | [] => ([], [], s)
  | w :: rest =>
    match s.workerStep? w with
    | none =>
      let (idle, busy, s) := turns s rest
      (w :: idle, busy, s)
    | some (w, s) =>
      let (w, s) := settleBy (fun (w, s) => s.workerStep? w) s.patience (w, s)
      let (idle, busy, s) := turns s rest
      (idle, w :: busy, s)

/-- Everybody who can go on takes a turn. -/
def settle (s : Shift) : Shift :=
  let (idle, busy, s) := s.turns s.workers
  { s with workers := idle ++ busy }

/-- The time at which somebody goes on. -/
def nextTimer? (s : Shift) : Option Nat :=
  (s.workers.map Worker.timer?).foldl earlier? none

/-- Let time pass up to a moment. -/
def workUntil (moment : Nat) : Nat → Shift → Shift
  | 0, s => { s with now := moment }
  | fuel + 1, s =>
    match s.nextTimer? with
    | some time =>
      if time ≤ moment then
        workUntil moment fuel { s with now := time }.settle
      else
        { s with now := moment }
    | none => { s with now := moment }

/-- The dismissed workers finish what they have. -/
def finish : Nat → Shift → Shift
  | 0, s => s
  | fuel + 1, s =>
    match s.nextTimer? with
    | some time => finish fuel { s with now := time }.settle
    | none => s

/-- A whole shift, whose workers are dismissed at the given time. -/
def run (s : Shift) (duration : Nat) : Shift :=
  let s := workUntil duration (duration + 1) s.settle
  finish s.workers.length { s with workers := s.workers.map Worker.dismiss }.settle

def fetchTimes (s : Shift) : List Nat :=
  s.fetches.reverse

/-- The waits of the workers, by time and misses. -/
def pausesInOrder (s : Shift) : List (Nat × Nat) :=
  s.pauses.mergeSort fun a b => a.1 < b.1 || (a.1 == b.1 && a.2 ≤ b.2)

/-- The results handed in, by time and task. -/
def submissionsInOrder (s : Shift) : List Submitted :=
  s.submissions.mergeSort fun a b =>
    a.time < b.time || (a.time == b.time && a.result.id.number ≤ b.result.id.number)

end Shift

end TaskFarm.Simulation
