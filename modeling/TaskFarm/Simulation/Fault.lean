import TaskFarm.Farm.Basic

/-!
# Faults

A simulation tells the surroundings of a walk, of a worker and of a farm what to do.  They can be
told to do their duty and to fail in it: a responder may answer wrongly or not at all, a supply may
break down, and a bookkeeper may break the rules of the ledger, to see what becomes of it.
-/

namespace TaskFarm.Simulation

/-- One thing that the responder does about the task it received last. -/
inductive Reply where
  /-- Compute the task, which takes its cost, and send the result. -/
  | compute
  /-- Send a result of this task. -/
  | answer (outcome : Except TaskError Float)
  /-- Send a result with an id that no task has. -/
  | foreign (outcome : Except TaskError Float)
  /-- Send a value under the id of the task before this one. -/
  | previous (value : Float)
  | sleep (duration : Nat)
  | hangUp
  /-- Take no further tasks and send no further results. -/
  | close

/-- What a worker gets when it looks for a task. -/
inductive Supply where
  | task (task : Task)
  | nothing
  /-- The fetch fails, which comes to the same as finding nothing. -/
  | failure
  /-- The fetch is never answered. -/
  | silence
  /-- The fetch breaks the worker. -/
  | breakdown

/-- A way to keep the books badly. -/
inductive Fault where
  | refusesCreation
  | refusesEnding
  /-- Each record ends with a value as soon as it is created. -/
  | endsAtOnce (value : Float)

/-- Create a record that ends at once. -/
def createEnded (value : Float) (l : Ledger) (r : Record) : Except LedgerError Ledger :=
  match l.create r with
  | .error e => .error e
  | .ok l =>
    match l.finish r.id (.done value) with
    | .error e => .error e
    | .ok (_, l) => .ok l

def Fault.bookkeeper : Fault → Bookkeeper
  | .refusesCreation =>
    { Bookkeeper.regular with create := fun _ r => .error (.alreadyExists r.id) }
  | .refusesEnding => { Bookkeeper.regular with finish := fun _ id _ => .error (.notFound id) }
  | .endsAtOnce value => { Bookkeeper.regular with create := createEnded value }

end TaskFarm.Simulation
