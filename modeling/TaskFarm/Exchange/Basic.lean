import TaskFarm.Channel
import TaskFarm.Settings
import TaskFarm.Task.Basic

/-!
# The task exchange

Walks hand in tasks at an exchange and workers fetch them there.  Each walk has a session with a
channel for its tasks and one for their results.  A relay carries the tasks of its session to the
one queue of the exchange, and notes for each of them the route that its result takes back.

Everybody who deals with the exchange is named by a number, so that one who has to wait can be
told apart from the others.
-/

namespace TaskFarm

/-- The number of a session, in the order of opening. -/
abbrev SessionId := Nat

/-- The name of somebody who sends, fetches or submits. -/
abbrev Party := Nat

inductive Relay where
  /-- Waiting for a task of its session. -/
  | idle
  /-- Bringing a task that has its route to the queue. -/
  | holding (task : Task)
  | ended

/-- The exchange's side of a walk. -/
structure Session where
  tasks : Channel Party Task
  relay : Relay
  results : Channel Party TaskResult
  /-- Nobody hands in further tasks. -/
  senderGone : Bool

/-- A session that was just opened: each of its channels has room for one. -/
def Session.opened : Session :=
  { tasks := .empty 1, relay := .idle, results := .empty 1, senderGone := false }

def Session.hasEnded (s : Session) : Bool :=
  match s.relay with
  | .ended => true
  | _ => false

/-- Where somebody stands who fetches a task. -/
inductive FetchStage where
  /-- In line for the queue. -/
  | inLine
  /-- At the queue, waiting for a task until the deadline. -/
  | polling (deadline : Nat)
  /-- In line for the queue again to close it, since the exchange was closed meanwhile. -/
  | closing
  deriving DecidableEq, Repr

/-- A fetch that has not been answered yet. -/
structure PendingFetch where
  party : Party
  stage : FetchStage
  deriving DecidableEq, Repr

structure Exchange where
  settings : QueueSettings
  queue : Channel SessionId Task
  /-- The session that waits for the result of each task handed in and not yet answered. -/
  routes : List (TaskId × SessionId)
  sessions : Array Session
  /-- No further tasks are taken on. -/
  closed : Bool
  /-- The fetches under way.  The first one has the queue to itself. -/
  line : List PendingFetch

inductive FetchReply where
  | task (task : Task)
  | nothing
  /-- The exchange is closed and the queue is empty. -/
  | closed

/-- Why the exchange fails to carry something. -/
inductive TransportError where
  | closed
  | unknownTask (id : TaskId)
  | sessionClosed (id : TaskId)
  deriving DecidableEq, Repr

def TransportError.message (name : TaskId → String) : TransportError → String
  | .closed => "task queue closed"
  | .unknownTask id => "no pending task with id " ++ name id
  | .sessionClosed id => "session for task " ++ name id ++ " is gone"

namespace Exchange

/-- An exchange without sessions, whose queue has room for at least one task. -/
def opened (settings : QueueSettings) : Exchange :=
  { settings
    queue := .empty (max settings.capacity 1)
    routes := []
    sessions := #[]
    closed := false
    line := [] }

/-- The number of tasks in the queue, counting the places that are reserved. -/
def pending (x : Exchange) : Nat :=
  x.queue.occupied

/-- The number of tasks handed in and not yet answered. -/
def inFlight (x : Exchange) : Nat :=
  x.routes.length

/-- The session that waits for the result of a task. -/
def route? (x : Exchange) (id : TaskId) : Option SessionId :=
  (x.routes.find? fun route => route.1 == id).map Prod.snd

def addRoute (x : Exchange) (id : TaskId) (s : SessionId) : Exchange :=
  { x with routes := (x.routes.filter fun route => !(route.1 == id)) ++ [(id, s)] }

def removeRoute (x : Exchange) (id : TaskId) : Exchange :=
  { x with routes := x.routes.filter fun route => !(route.1 == id) }

def setSession (x : Exchange) (s : SessionId) (session : Session) : Exchange :=
  { x with sessions := x.sessions.setIfInBounds s session }

end Exchange

end TaskFarm
