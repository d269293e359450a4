import TaskFarm.Decimal.Numeral
import TaskFarm.Task.CostTable
import TaskFarm.Text.Blank

/-!
# Settings

What can be set: the cost of each operator, the room in the task queue, the number of workers and
how long an idle one waits, and the depth that a walk may reach.  Settings are read from a look-up
of texts by name; a text that is no number leaves its setting alone.
-/

namespace TaskFarm

/-- The greatest number that fits 64 bits. -/
def maxWord : Nat := UInt64.size - 1

/-- How the task queue is set up. -/
structure QueueSettings where
  /-- How many tasks may wait in the queue. -/
  capacity : Nat
  /-- How long a fetch waits for a task, in milliseconds; without a time it does not wait. -/
  fetchTimeout : Option Nat
  deriving DecidableEq, Repr

/-- The room in the queue for each worker. -/
def slotsPerWorker : Nat := 4

/-- The queue for a number of workers, which has room for at least one of them. -/
def QueueSettings.forWorkers (workers : Nat) : QueueSettings :=
  { capacity := max slotsPerWorker (min (slotsPerWorker * workers) maxWord)
    fetchTimeout := none }

structure WorkerSettings where
  count : Nat
  /-- How long a worker waits when it found no task, in milliseconds. -/
  backoff : Nat
  deriving DecidableEq, Repr

structure Settings where
  costs : CostTable
  queue : QueueSettings
  workers : WorkerSettings
  maxDepth : Nat
  deriving DecidableEq, Repr

namespace Settings

/-- The settings that hold where nothing else is said: one worker, three seconds of backoff. -/
def standard : Settings :=
  { costs := .standard
    queue := .forWorkers 1
    workers := { count := 1, backoff := 3000 }
    maxDepth := 1000 }

/-- A non-negative integer that fits 64 bits: an optional plus sign and digits. -/
def word? (cs : List Char) : Option Nat :=
  let digits :=
    match cs with
    | '+' :: rest => rest
    | _ => cs
  if !digits.isEmpty && digits.all Decimal.isDigit then
    let value := Decimal.digitsValue digits
    if value ≤ maxWord then some value else none
  else
    none

/-- The number that a text says when white space around it is cut off. -/
def number? (text : String) : Option Nat :=
  word? (Text.trimBlanks text.toList)

/-- The number under a name, if there is one. -/
def lookup? (env : String → Option String) (name : String) : Option Nat :=
  (env name).bind number?

/-- The names of the texts that are looked up. -/
def names : List String :=
  ["TIME_ADDITION_MS", "TIME_SUBTRACTION_MS", "TIME_MULTIPLICATIONS_MS", "TIME_DIVISIONS_MS",
    "COMPUTING_POWER", "WORKER_BACKOFF_MS"]

/-- The settings that a look-up of texts gives.  There is at least one worker, and a backoff takes
at least one millisecond. -/
def ofLookup (env : String → Option String) : Settings :=
  let count := max 1 ((lookup? env "COMPUTING_POWER").getD standard.workers.count)
  { costs :=
      { add := (lookup? env "TIME_ADDITION_MS").getD standard.costs.add
        sub := (lookup? env "TIME_SUBTRACTION_MS").getD standard.costs.sub
        mul := (lookup? env "TIME_MULTIPLICATIONS_MS").getD standard.costs.mul
        div := (lookup? env "TIME_DIVISIONS_MS").getD standard.costs.div }
    queue := .forWorkers count
    workers :=
      { count
        backoff :=
          ((lookup? env "WORKER_BACKOFF_MS").map fun ms => max 1 ms).getD standard.workers.backoff }
    maxDepth := standard.maxDepth }

/-- The settings with another number of workers, at least one, and a queue to match. -/
def withWorkers (s : Settings) (count : Nat) : Settings :=
  { s with
    workers := { s.workers with count := max 1 count }
    queue := { s.queue with capacity := (QueueSettings.forWorkers (max 1 count)).capacity } }

end Settings

end TaskFarm
