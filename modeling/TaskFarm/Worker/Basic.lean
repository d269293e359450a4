import TaskFarm.Exchange.Basic
import TaskFarm.Task.Compute
import TaskFarm.Worker.Backoff

/-!
# Workers

A worker looks for a task, computes it, hands in the result and looks again at once.  When it finds
none, it waits as long as its policy says.  A worker that is dismissed gives up a fetch or a wait,
but it finishes a task that it has and hands in the result before it stops.

The functions here are the moves of one worker; where its tasks come from and where its results go
is left to the outside.
-/

namespace TaskFarm

inductive Occupation where
  | ready
  | fetching
  | computing (task : Task) (doneAt : Nat)
  /-- Waiting for room in a session for the result of a task. -/
  | submitting (id : TaskId) (session : SessionId)
  | pausing (wakeAt : Nat)
  | stopped
  /-- Broken down for good. -/
  | crashed

structure Worker where
  occupation : Occupation
  /-- How many times in a row it found no task. -/
  misses : Nat
  dismissed : Bool

namespace Worker

/-- The greatest number of misses that is counted. -/
def maxMisses : Nat := UInt32.size - 1

def hired : Worker :=
  { occupation := .ready, misses := 0, dismissed := false }

/-- A worker that is ready looks for a task, or stops if it is dismissed. -/
def look (w : Worker) : Worker :=
  { w with occupation := if w.dismissed then .stopped else .fetching }

/-- The worker finds a task and computes it. -/
def found (w : Worker) (task : Task) (now : Nat) : Worker :=
  { w with occupation := .computing task (now + task.cost), misses := 0 }

def nextMiss (w : Worker) : Nat :=
  min (w.misses + 1) maxMisses

/-- The worker finds no task and waits. -/
def missed (w : Worker) (policy : RetryPolicy) (now : Nat) : Worker :=
  { w with occupation := .pausing (now + policy w.nextMiss), misses := w.nextMiss }

/-- The worker is about to look for a task again. -/
def resumed (w : Worker) : Worker :=
  { w with occupation := .ready }

/-- The worker has to wait for room for its result. -/
def held (w : Worker) (id : TaskId) (session : SessionId) : Worker :=
  { w with occupation := .submitting id session }

def crash (w : Worker) : Worker :=
  { w with occupation := .crashed }

def dismiss (w : Worker) : Worker :=
  { w with dismissed := true }

def stop (w : Worker) : Worker :=
  { w with occupation := .stopped }

/-- The worker waits for something that it gives up when it is dismissed. -/
def isIdle (w : Worker) : Bool :=
  match w.occupation with
  | .fetching | .pausing _ => true
  | _ => false

def hasEnded (w : Worker) : Bool :=
  match w.occupation with
  | .stopped | .crashed => true
  | _ => false

/-- The time at which the worker goes on by itself. -/
def timer? (w : Worker) : Option Nat :=
  match w.occupation with
  | .computing _ doneAt => some doneAt
  | .pausing wakeAt => some wakeAt
  | _ => none

end Worker

/-- The earlier of two times, where there are any. -/
def earlier? : Option Nat → Option Nat → Option Nat
  | some a, some b => some (min a b)
  | some a, none => some a
  | none, b => b

end TaskFarm
