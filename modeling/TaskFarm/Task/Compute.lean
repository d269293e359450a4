import TaskFarm.Task.Basic

/-!
# Computing a task

A task that carries an error or names no operator fails at once.  Every other task takes its
duration; then it divides by zero or comes to a value.
-/

namespace TaskFarm

open TaskFarm.Expr (Operator)

namespace Task

/-- What a task comes to, its duration apart. -/
def compute (t : Task) : Except TaskError Float :=
  match t.error with
  | some error => .error error
  | none =>
    match t.operator with
    | .error error => .error error
    | .ok op =>
      if divides op t.arg2 then
        .error .divisionByZero
      else
        .ok (op.apply t.arg1 t.arg2)

/-- How long it takes to compute a task, in milliseconds. -/
def cost (t : Task) : Nat :=
  match t.error, t.operator with
  | none, .ok _ => t.duration
  | _, _ => 0

def result (t : Task) : TaskResult :=
  .ofOutcome t.id t.compute

end Task

end TaskFarm
