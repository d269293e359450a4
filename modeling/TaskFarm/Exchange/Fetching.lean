import TaskFarm.Exchange.Basic

/-!
# From the queue to a worker

Whoever fetches a task gets in line for the queue.  The first in line takes the oldest task.  If
there is none, it goes away at once, or it waits as long as the settings say, its time running from
its turn; meanwhile the others stay in line.  Closing the exchange wakes everybody in line, and the
first one closes the queue.
-/

namespace TaskFarm.Exchange

/-- The answer to a fetch that found no task. -/
def emptyReply (x : Exchange) : FetchReply :=
  if x.closed then .closed else .nothing

def fetchOf? (x : Exchange) (party : Party) : Option PendingFetch :=
  x.line.find? fun f => f.party == party

def lineWithout (x : Exchange) (party : Party) : List PendingFetch :=
  x.line.filter fun f => !(f.party == party)

def isFirst (x : Exchange) (party : Party) : Bool :=
  match x.line with
  | f :: _ => f.party == party
  | [] => false

/-- Somebody gets in line to fetch a task. -/
def startFetch (x : Exchange) (party : Party) : Exchange :=
  { x with line := x.line ++ [⟨party, .inLine⟩] }

/-- The fetch of a party is over, or given up. -/
def leaveLine (x : Exchange) (party : Party) : Exchange :=
  { x with line := x.lineWithout party }

/-- The fetch of a party goes on in another stage. -/
def setStage (x : Exchange) (party : Party) (stage : FetchStage) : Exchange :=
  { x with line := x.line.map fun f => if f.party == party then ⟨party, stage⟩ else f }

/-- The fetch of a party goes to the end of the line to close the queue. -/
def requeue (x : Exchange) (party : Party) : Exchange :=
  { x with line := x.lineWithout party ++ [⟨party, .closing⟩] }

/-- The queue is closed if the exchange is. -/
def closeQueueIfClosed (x : Exchange) : Exchange :=
  if x.closed then { x with queue := x.queue.close } else x

/-- The first in line takes a task and leaves, if there is one. -/
def takeTask? (x : Exchange) (party : Party) : Option (FetchReply × Exchange) :=
  x.queue.take?.map fun (task, queue) => (.task task, { x with queue }.leaveLine party)

/-- The first in line leaves without a task. -/
def leaveEmpty (x : Exchange) (party : Party) : FetchReply × Exchange :=
  (x.emptyReply, x.leaveLine party)

/-- A step of a fetch: the answer if there is one, and the new state. -/
abbrev FetchStep := Option FetchReply × Exchange

def answered (step : FetchReply × Exchange) : FetchStep :=
  (some step.1, step.2)

/-- The turn of the first in line begins. -/
def beginTurn (x : Exchange) (party : Party) (now : Nat) : FetchStep :=
  let x := x.closeQueueIfClosed
  match x.takeTask? party with
  | some step => answered step
  | none =>
    match x.settings.fetchTimeout with
    | none => answered (x.leaveEmpty party)
    | some timeout =>
      if x.closed || timeout == 0 then
        answered (x.leaveEmpty party)
      else
        (none, x.setStage party (.polling (now + timeout)))

/-- One step of the fetch of a party, unless it has to wait. -/
def fetchStep? (x : Exchange) (party : Party) (now : Nat) : Option FetchStep :=
  (x.fetchOf? party).bind fun f =>
    match f.stage with
    | .inLine =>
      if x.isFirst party then
        some (x.beginTurn party now)
      else if x.closed then
        some (none, x.requeue party)
      else
        none
    | .polling deadline =>
      match x.takeTask? party with
      | some step => some (answered step)
      | none =>
        if deadline ≤ now then
          some (answered (x.leaveEmpty party))
        else if x.closed then
          some (none, x.requeue party)
        else
          none
    | .closing =>
      if x.isFirst party then
        let x := x.closeQueueIfClosed
        some (answered ((x.takeTask? party).getD (x.leaveEmpty party)))
      else
        none

/-- The time at which the fetch under way gives up waiting. -/
def fetchDeadline? (x : Exchange) : Option Nat :=
  x.line.findSome? fun f =>
    match f.stage with
    | .polling deadline => some deadline
    | _ => none

/-- Close the exchange: it takes on no further tasks.  Whoever is first in line closes the queue;
if nobody is, it is closed here. -/
def close (x : Exchange) : Exchange :=
  let x := { x with closed := true }
  if x.line.isEmpty then x.closeQueueIfClosed else x

end TaskFarm.Exchange
