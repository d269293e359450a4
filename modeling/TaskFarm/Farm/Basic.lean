import TaskFarm.Exchange.Fetching
import TaskFarm.Exchange.Sending
import TaskFarm.Exchange.Submitting
import TaskFarm.FarmError
import TaskFarm.Worker.Basic

/-!
# The farm

A farm takes expressions in, walks each of them on its own, and lets workers compute the tasks.
All walks and workers deal with one exchange, and the ledger says what became of each expression.
-/

namespace TaskFarm

/-- The number of a run, in the order of beginning. -/
abbrev RunId := Nat

/-- The number of a worker, in the order of hiring. -/
abbrev WorkerId := Nat

/-- How records are created in a ledger and how they are ended. -/
structure Bookkeeper where
  create : Ledger → Record → Except LedgerError Ledger
  finish : Ledger → ExpressionId → Ending → Except LedgerError (Record × Ledger)

/-- The bookkeeper that does what the ledger says. -/
def Bookkeeper.regular : Bookkeeper :=
  { create := Ledger.create, finish := Ledger.finish }

/-- The names of tasks and expressions, in the order in which they are given. -/
structure Naming where
  task : Nat → TaskId
  expression : Nat → ExpressionId

/-- Tasks and expressions are named by counting. -/
def Naming.counting : Naming :=
  { task := TaskId.mk, expression := ExpressionId.mk }

inductive Progress where
  | underWay
  | ended (outcome : Except FarmError Float)
  /-- Nobody waits for the outcome any more. -/
  | abandoned

/-- The evaluation of an expression that was taken in. -/
structure Run where
  expression : ExpressionId
  plan : Plan
  walk : Walk
  session : SessionId
  progress : Progress

namespace Run

def isUnderWay (r : Run) : Bool :=
  match r.progress with
  | .underWay => true
  | _ => false

def outcome? (r : Run) : Option (Except FarmError Float) :=
  match r.progress with
  | .ended outcome => some outcome
  | _ => none

end Run

structure Farm where
  naming : Naming
  settings : Settings
  books : Bookkeeper
  ledger : Ledger
  exchange : Exchange
  runs : Array Run
  workers : Array Worker
  now : Nat
  nextTask : Nat
  nextExpression : Nat

namespace Farm

def openedWith (naming : Naming) (settings : Settings) (books : Bookkeeper) : Farm :=
  { naming, settings, books
    ledger := .empty
    exchange := .opened settings.queue
    runs := #[]
    workers := #[]
    now := 0
    nextTask := 0
    nextExpression := 0 }

/-- A farm that names by counting. -/
def opened (settings : Settings) (books : Bookkeeper) : Farm :=
  .openedWith .counting settings books

def setRun (f : Farm) (r : RunId) (run : Run) : Farm :=
  { f with runs := f.runs.setIfInBounds r run }

def setWorker (f : Farm) (w : WorkerId) (worker : Worker) : Farm :=
  { f with workers := f.workers.setIfInBounds w worker }

def outcome? (f : Farm) (r : RunId) : Option (Except FarmError Float) :=
  (f.runs[r]?).bind Run.outcome?

/-- How long the workers wait when they find nothing. -/
def policy (f : Farm) : RetryPolicy :=
  (FixedBackoff.ofMillis f.settings.workers.backoff).policy

/-- The time at which somebody goes on by itself. -/
def nextTimer? (f : Farm) : Option Nat :=
  f.workers.foldl (fun time w => earlier? time w.timer?) f.exchange.fetchDeadline?

end Farm

end TaskFarm
