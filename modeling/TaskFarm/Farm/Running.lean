import TaskFarm.Expr.Parse
import TaskFarm.Farm.Basic

/-!
# Expressions and their runs

An expression that is taken in gets a record.  One that can be read gets a run as well, whose walk
has a session of its own; one that cannot be read has failed already.  When a walk is over, the
outcome goes to the ledger and the session is given up.
-/

namespace TaskFarm

open TaskFarm.Expr (Arena)

namespace Farm

/-- Begin the run of an expression. -/
def beginRun (f : Farm) (expression : ExpressionId) (arena : Arena) : RunId × Farm :=
  let plan : Plan := ⟨arena, f.settings.costs, f.settings.maxDepth⟩
  let (session, exchange) := f.exchange.openSession
  let run : Run := ⟨expression, plan, plan.start, session, .underWay⟩
  (f.runs.size, { f with exchange, runs := f.runs.push run })

/-- The expression that is taken in next. -/
def freshExpression (f : Farm) : ExpressionId :=
  f.naming.expression f.nextExpression

/-- Take an expression in and begin its run, unless it cannot be read. -/
def accept (f : Farm) (source : String) : Except FarmError RunId × Farm :=
  let id := f.freshExpression
  let f := { f with nextExpression := f.nextExpression + 1 }
  match f.books.create f.ledger (.processing id source) with
  | .error e => (.error (.ledger e), f)
  | .ok ledger =>
    let f := { f with ledger }
    match Expr.parse source with
    | .ok arena =>
      let (r, f) := f.beginRun id arena
      (.ok r, f)
    | .error cause =>
      match f.books.finish f.ledger id .failed with
      | .error e => (.error (.ledger e), f)
      | .ok (_, ledger) => (.error (.ofCompileError cause), { f with ledger })

/-- The walk of a run is given up together with its session. -/
def releaseSession (f : Farm) (s : SessionId) : Farm :=
  { f with exchange := (f.exchange.dropTasks s).dropResults s }

/-- How a walk's outcome is noted in the ledger. -/
def ending : Except EvalError Float → Ending
  | .ok value => .done value
  | .error _ => .failed

/-- The outcome of a run whose walk came to the given outcome. -/
def ofWalk : Except EvalError Float → Except FarmError Float
  | .ok value => .ok value
  | .error cause => .error (.evaluation cause)

/-- The run of a walk that is over ends. -/
def conclude (f : Farm) (r : RunId) (run : Run) (outcome : Except EvalError Float) : Farm :=
  let f := f.releaseSession run.session
  match f.books.finish f.ledger run.expression (ending outcome) with
  | .ok (_, ledger) => { f with ledger }.setRun r { run with progress := .ended (ofWalk outcome) }
  | .error e => f.setRun r { run with progress := .ended (.error (.ledger e)) }

/-- Replace the walk of a run. -/
def setWalk (f : Farm) (r : RunId) (run : Run) (walk : Walk) : Farm :=
  f.setRun r { run with walk }

/-- The walk of a run has tried to send its task. -/
def afterSending (f : Farm) (r : RunId) (run : Run) : Sending → Farm
  | .accepted => f.setWalk r run run.walk.accepted
  | .refused => f.setWalk r run run.walk.refused
  | .waiting => f

/-- One step of a run, unless it has to wait or is over. -/
def walkStep? (f : Farm) (r : RunId) : Option Farm :=
  (f.runs[r]?).bind fun run =>
    if run.isUnderWay then
      match run.walk.stage with
      | .walking =>
        let walk := run.plan.proceed (f.naming.task f.nextTask) run.walk
        some ({ f with nextTask := f.nextTask + 1 }.setWalk r run walk)
      | .offering _ task =>
        (f.exchange.attemptSend? run.session r task).map fun (sending, exchange) =>
          { f with exchange }.afterSending r run sending
      | .awaiting _ _ =>
        match f.exchange.receive run.session with
        | (.result result, exchange) =>
          some ({ f with exchange }.setWalk r run (run.walk.received result))
        | (.disconnected, _) => some (f.setWalk r run run.walk.hungUp)
        | (.empty, _) => none
      | .finished outcome => some (f.conclude r run outcome)
      | .stuck => none
    else
      none

/-- One step of the relay of a session. -/
def relayStep? (f : Farm) (s : SessionId) : Option Farm :=
  (f.exchange.relayStep? s).map fun exchange => { f with exchange }

/-- A run is given up before its end: what it waits to send is withdrawn, its record stays as it
is, and a task that it sent stays under way. -/
def abandon (f : Farm) (r : RunId) : Farm :=
  match f.runs[r]? with
  | none => f
  | some run =>
    if run.isUnderWay then
      let f := { f with exchange := f.exchange.withdrawSend run.session r }
      (f.releaseSession run.session).setRun r { run with progress := .abandoned }
    else
      f

end Farm

end TaskFarm
