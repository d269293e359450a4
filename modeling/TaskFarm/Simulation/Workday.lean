import TaskFarm.Farm.Move

/-!
# A farm under a simulated clock

On a workday a farm gets one request after the other, and after each of them everything goes on
until everybody waits.  The clock moves only while a request is waited for, and it stops at every
timer on its way.

Workers go first, each of them as far as it can; then the relays; then the walks.  Of several
workers the one that has waited longest goes first, and of several runs the one whose result came
first, except that a run whose value is waited for goes last.
-/

namespace TaskFarm.Simulation

open TaskFarm.Expr (Arena)

inductive Workday.Request where
  | spawn
  | submit (source : String)
  /-- Take an expression in and wait for its value, for a limited time. -/
  | evaluate (source : String) (timeout : Nat)
  | compile (source : String)
  | get (id : ExpressionId)
  | list
  /-- Dismiss the team that was hired last and wait until it has stopped. -/
  | shutDown
  | close
  | sleep (duration : Nat)
  | settings

inductive Workday.Answer where
  | done
  | hired (count : Nat)
  | submitted (outcome : Except FarmError ExpressionId)
  /-- The value of an expression, or nothing if it took too long. -/
  | evaluated (outcome : Option (Except FarmError Float))
  | compiled (outcome : Except FarmError Arena)
  | found (record : Option Record)
  | listed (records : List Record)
  | settings (s : Settings)

/-- What is seen after a request. -/
structure Workday.Observation where
  reply : Workday.Answer
  pending : Nat
  inFlight : Nat
  now : Nat

structure Workday where
  farm : Farm
  /-- The runs that may still go on, in the order in which they last took a turn or were sent a
  result. -/
  order : List RunId
  /-- The workers, the one that has waited longest first. -/
  crew : List WorkerId
  /-- The run whose value is waited for. -/
  awaited : Option RunId
  /-- The workers of each team, the one hired last first. -/
  teams : List (List WorkerId)

namespace Workday

def start (settings : Settings) (books : Bookkeeper) : Workday :=
  { farm := .opened settings books, order := [], crew := [], awaited := none, teams := [] }

def workerMoves (w : WorkerId) : List Move :=
  [.quit w, .work w]

/-- A bound on the steps of a worker's turn, in which it may compute every task of the queue. -/
def workerPatience (f : Farm) : Nat :=
  8 * (f.exchange.queue.buffer.length + 4)

/-- A member goes to the end of a line. -/
def toEnd (member : Nat) (line : List Nat) : List Nat :=
  line.filter (fun other => !(other == member)) ++ [member]

/-- The run to which a worker is about to send a result. -/
def addressee? (f : Farm) (w : WorkerId) : Option RunId :=
  match (f.workers[w]?).map Worker.occupation with
  | some (.computing task _) =>
    (f.exchange.route? task.id).bind fun s => f.runs.findIdx? fun run => run.session == s
  | _ => none

/-- One move of a worker, which may send a result to a run. -/
def workerStep? (w : WorkerId) (d : Workday) : Option Workday :=
  (d.farm.firstMove? (workerMoves w)).map fun farm =>
    match addressee? d.farm w with
    | some r => { d with farm, order := toEnd r d.order }
    | none => { d with farm }

/-- A worker goes on until it has to wait, and gets in line again. -/
def workerTurnOf? (d : Workday) (w : WorkerId) : Option Workday :=
  (workerStep? w d).map fun d =>
    let d := settleBy (workerStep? w) (workerPatience d.farm) d
    { d with crew := toEnd w d.crew }

/-- The first worker that can go on takes its turn. -/
def workerTurn? (d : Workday) : Option Workday :=
  d.crew.findSome? d.workerTurnOf?

/-- The first relay that can go on makes a step. -/
def relayTurn? (d : Workday) : Option Workday :=
  d.order.findSome? fun r =>
    (d.farm.runs[r]?).bind fun run =>
      (d.farm.move? (.relay run.session)).map fun farm => { d with farm }

def walkOrder (d : Workday) : List RunId :=
  match d.awaited with
  | some last => toEnd last d.order
  | none => d.order

/-- The steps that a walk makes in one turn at most. -/
def walkPatience : Nat := 16

/-- A run goes on until it has to wait, and gets in line again. -/
def walkTurnOf? (d : Workday) (r : RunId) : Option Workday :=
  (d.farm.move? (.walk r)).map fun farm =>
    { d with
      farm := settleBy (fun f => f.move? (.walk r)) walkPatience farm
      order := toEnd r d.order }

/-- The first run that can go on takes its turn. -/
def walkTurn? (d : Workday) : Option Workday :=
  d.walkOrder.findSome? d.walkTurnOf?

/-- Somebody who can go on takes a turn. -/
def turn? (d : Workday) : Option Workday :=
  (d.workerTurn?.or d.relayTurn?).or d.walkTurn?

def sizeOf (d : Workday) (r : RunId) : Nat :=
  match d.farm.runs[r]? with
  | some run => run.plan.arena.size
  | none => 0

/-- The size of all the trees that are walked. -/
def walkedSize (d : Workday) : Nat :=
  d.order.foldl (fun total r => total + d.sizeOf r) 0

/-- A bound on the turns that can be taken without the clock: each node of a tree that is walked
takes a few. -/
def patience (d : Workday) : Nat :=
  8 * (d.walkedSize + 4 * (d.order.length + d.farm.workers.size + 4))

def settle (d : Workday) : Workday :=
  settleBy turn? d.patience d

def wait (d : Workday) (moment : Nat) : Workday :=
  { d with farm := (d.farm.move? (.wait moment)).getD d.farm }

def sleepUntil (moment : Nat) : Nat → Workday → Workday
  | 0, d => d.wait moment
  | fuel + 1, d =>
    match d.farm.nextTimer? with
    | some time =>
      if time ≤ moment then sleepUntil moment fuel (d.wait time).settle else d.wait moment
    | none => d.wait moment

/-- Let time pass until a run is over or its time is; what would happen at the very deadline comes
too late. -/
def awaitRun (r : RunId) (deadline : Nat) : Nat → Workday → Workday
  | 0, d => d
  | fuel + 1, d =>
    if (d.farm.outcome? r).isSome then
      d
    else
      match d.farm.nextTimer? with
      | some time =>
        if time < deadline then
          awaitRun r deadline fuel (d.wait time).settle
        else
          d.wait deadline
      | none => d.wait deadline

/-- The value of a run is waited for; the run is given up when its time is over. -/
def evaluateRun (d : Workday) (r : RunId) (timeout : Nat) : Answer × Workday :=
  let deadline := d.farm.now + timeout
  let d := { d with awaited := some r }
  let d := (d.walkTurnOf? r).getD d
  let d := if timeout = 0 then d else awaitRun r deadline timeout d.settle
  let outcome := d.farm.outcome? r
  let farm := if outcome.isSome then d.farm else d.farm.abandon r
  (.evaluated outcome, { d with farm, awaited := none })

/-- Somebody of a team has not stopped. -/
def isAtWork (f : Farm) (team : List WorkerId) : Bool :=
  team.any fun w =>
    match f.workers[w]? with
    | some worker => !worker.hasEnded
    | none => false

/-- Let time pass until everybody of a team has stopped. -/
def awaitTeam (team : List WorkerId) : Nat → Workday → Workday
  | 0, d => d
  | fuel + 1, d =>
    if isAtWork d.farm team then
      match d.farm.nextTimer? with
      | some time => awaitTeam team fuel (d.wait time).settle
      | none => d
    else
      d

/-- The time at which everybody of a team is done with what it computes. -/
def lastTimer (f : Farm) (team : List WorkerId) : Nat :=
  (team.filterMap fun w => (f.workers[w]?).bind Worker.timer?).foldl max f.now

/-- The team that was hired last is dismissed, and everybody waits until it has stopped. -/
def shutDown (d : Workday) : Workday :=
  match d.teams with
  | [] => d
  | team :: others =>
    let farm := team.foldl Farm.dismiss d.farm
    let d := { d with farm, teams := others }.settle
    awaitTeam team (lastTimer d.farm team - d.farm.now + 1) d

def spawn (d : Workday) : Answer × Workday :=
  let count := d.farm.settings.workers.count
  let team := List.range' d.farm.workers.size count
  (.hired count, { d with farm := d.farm.hire, crew := d.crew ++ team, teams := team :: d.teams })

def accept (d : Workday) (source : String) : Except FarmError RunId × Workday :=
  match d.farm.accept source with
  | (.ok r, farm) => (.ok r, { d with farm, order := d.order ++ [r] })
  | (.error e, farm) => (.error e, { d with farm })

def carryOut (d : Workday) : Request → Answer × Workday
  | .spawn => d.spawn
  | .submit source =>
    let id := d.farm.freshExpression
    let (outcome, d) := d.accept source
    (.submitted (outcome.map fun _ => id), d)
  | .evaluate source timeout =>
    match d.accept source with
    | (.ok r, d) => d.evaluateRun r timeout
    | (.error e, d) => (.evaluated (some (.error e)), d)
  | .compile source => (.compiled ((Expr.parse source).mapError .ofCompileError), d)
  | .get id => (.found (d.farm.ledger.get? id), d)
  | .list => (.listed d.farm.ledger.records, d)
  | .shutDown => (.done, d.shutDown)
  | .close => (.done, { d with farm := (d.farm.move? .close).getD d.farm })
  | .sleep duration =>
    let moment := d.farm.now + duration
    (.done, sleepUntil moment (duration + 1) d)
  | .settings => (.settings d.farm.settings, d)

/-- A run or its relay may still go on. -/
def isActive (f : Farm) (r : RunId) : Bool :=
  match f.runs[r]? with
  | none => false
  | some run =>
    run.isUnderWay ||
      match f.exchange.sessions[run.session]? with
      | some session => !session.hasEnded
      | none => false

/-- Forget the runs that cannot go on. -/
def tidy (d : Workday) : Workday :=
  { d with order := d.order.filter (isActive d.farm) }

/-- A request is carried out and everything settles. -/
def request (d : Workday) (r : Request) : Observation × Workday :=
  let (reply, d) := d.carryOut r
  let d := d.settle.tidy
  ({ reply
     pending := d.farm.exchange.pending
     inFlight := d.farm.exchange.inFlight
     now := d.farm.now }, d)

def requests (d : Workday) : List Request → List Observation
  | [] => []
  | r :: rest =>
    let (seen, d) := d.request r
    seen :: d.requests rest

end Workday

end TaskFarm.Simulation
