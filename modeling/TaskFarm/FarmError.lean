import TaskFarm.Expr.CompileError
import TaskFarm.Ledger
import TaskFarm.Walk

/-!
# What can go wrong with an expression

An expression fails because it cannot be read, because its walk fails, or because the ledger
refuses its record.
-/

namespace TaskFarm

open TaskFarm.Expr (CompileError Diagnostic)

inductive FarmError where
  | compilation (diagnostic : Diagnostic) (cause : CompileError)
  | evaluation (cause : EvalError)
  | ledger (cause : LedgerError)
  deriving DecidableEq, Repr

namespace FarmError

/-- The failure of reading an expression. -/
def ofCompileError (e : CompileError) : FarmError :=
  .compilation e.diagnostic e

/-- The diagnostic of a failure to read an expression. -/
def diagnostic? : FarmError → Option Diagnostic
  | .compilation diagnostic _ => some diagnostic
  | _ => none

/-- The wording of a failure, with tasks and expressions named by the two functions. -/
def message (task : TaskId → String) (expression : ExpressionId → String) : FarmError → String
  | .compilation diagnostic _ => "Compilation failed: " ++ diagnostic.message
  | .evaluation cause => "Evaluation failed: " ++ cause.message task
  | .ledger cause => cause.message expression

end FarmError

end TaskFarm
