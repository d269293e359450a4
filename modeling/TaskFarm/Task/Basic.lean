import TaskFarm.Expr.Operator

/-!
# Tasks and their results

A task is one binary operation whose operands are numbers already.  A result answers the task
whose id it carries.  A task that is known to fail when it is made carries its error along.

Tasks, and expressions too, are named by 128-bit numbers, written as thirty-two lower-case
hexadecimal digits in groups of 8, 4, 4, 4 and 12.
-/

namespace TaskFarm

open TaskFarm.Expr (Operator)

/-- The last `count` hexadecimal digits of a number, the most significant one first. -/
def hexDigits : Nat → Nat → List Char
  | 0, _ => []
  | count + 1, n => hexDigits count (n / 16) ++ [Nat.digitChar (n % 16)]

/-- The written form of a 128-bit number. -/
def uuidText (n : Nat) : String :=
  let digits := hexDigits 32 n
  let group (start count : Nat) := (digits.drop start).take count
  String.ofList <|
    group 0 8 ++ '-' :: group 8 4 ++ '-' :: group 12 4 ++ '-' :: group 16 4 ++ '-' :: group 20 12

/-- The name of a task, which links a result to it. -/
structure TaskId where
  number : Nat
  deriving DecidableEq, Repr, Inhabited

def TaskId.text (id : TaskId) : String :=
  uuidText id.number

inductive TaskError where
  | divisionByZero
  | unknownOperator (symbol : String)
  deriving DecidableEq, Repr

def TaskError.message : TaskError → String
  | .divisionByZero => "division by zero"
  | .unknownOperator symbol => "unknown operator '" ++ symbol ++ "'"

/-- One operation on two numbers. -/
structure Task where
  id : TaskId
  arg1 : Float
  arg2 : Float
  /-- The symbol of the operation, as text: whoever computes the task checks it. -/
  operation : String
  /-- How long the operation takes, in milliseconds. -/
  duration : Nat
  /-- A failure found when the task was made. -/
  error : Option TaskError

namespace Task

/-- A divisor of either zero makes a division fail. -/
def divides (op : Operator) (divisor : Float) : Bool :=
  op == .div && divisor == 0.0

/-- The task of applying an operator to two numbers. -/
def make (id : TaskId) (op : Operator) (arg1 arg2 : Float) (duration : Nat) : Task :=
  { id, arg1, arg2, duration
    operation := op.text
    error := if divides op arg2 then some .divisionByZero else none }

/-- The operator that the task names. -/
def operator (t : Task) : Except TaskError Operator :=
  match Operator.ofText? t.operation with
  | some op => .ok op
  | none => .error (.unknownOperator t.operation)

end Task

structure TaskResult where
  id : TaskId
  value : Float
  error : Option TaskError

namespace TaskResult

def success (id : TaskId) (value : Float) : TaskResult :=
  { id, value, error := none }

/-- The result of a task that failed; its value is zero. -/
def failure (id : TaskId) (error : TaskError) : TaskResult :=
  { id, value := 0.0, error := some error }

def ofOutcome (id : TaskId) : Except TaskError Float → TaskResult
  | .ok value => success id value
  | .error error => failure id error

/-- The outcome that a result reports: an error outweighs the value. -/
def outcome (r : TaskResult) : Except TaskError Float :=
  match r.error with
  | some error => .error error
  | none => .ok r.value

end TaskResult

end TaskFarm
