import TaskFarm.Exchange.Basic

/-!
# From a worker back to the session

A result goes to the session that handed its task in.  The route is used up first, so that a task
is answered at most once; then the result waits for room in the session.
-/

namespace TaskFarm

inductive Submission where
  | delivered
  /-- The result waits for room in this session. -/
  | waiting (session : SessionId)
  | failed (error : TransportError)
  deriving DecidableEq, Repr

/-- What the owner of a session finds when it looks for a result. -/
inductive Received where
  | result (result : TaskResult)
  | empty
  /-- Nothing is there and nothing can come. -/
  | disconnected

/-- How the submission of a task's result stands after an attempt to put it into a session. -/
def Submission.of (id : TaskId) (s : SessionId) : Sending → Submission
  | .accepted => .delivered
  | .waiting => .waiting s
  | .refused => .failed (.sessionClosed id)

namespace Exchange

/-- Somebody submits the result of a task. -/
def submit (x : Exchange) (party : Party) (result : TaskResult) : Submission × Exchange :=
  match x.route? result.id with
  | none => (.failed (.unknownTask result.id), x)
  | some s =>
    let x := x.removeRoute result.id
    match x.sessions[s]? with
    | none => (.failed (.sessionClosed result.id), x)
    | some session =>
      let (sending, results) := session.results.offer party result
      (Submission.of result.id s sending, x.setSession s { session with results })

/-- Somebody whose result waits for room in a session goes on. -/
def resumeSubmit? (x : Exchange) (s : SessionId) (party : Party) (id : TaskId) :
    Option (Submission × Exchange) :=
  (x.sessions[s]?).bind fun session =>
    (session.results.resume? party).map fun (sending, results) =>
      (Submission.of id s sending, x.setSession s { session with results })

/-- A result can still come to a session: its relay is at work, or a task of it is on its way. -/
def canReceive (x : Exchange) (s : SessionId) (session : Session) : Bool :=
  !session.hasEnded || (x.routes.any fun route => route.2 == s) ||
    !session.results.granted.isEmpty || !session.results.waiting.isEmpty

/-- The owner of a session looks for a result. -/
def receive (x : Exchange) (s : SessionId) : Received × Exchange :=
  match x.sessions[s]? with
  | none => (.disconnected, x)
  | some session =>
    match session.results.take? with
    | some (result, results) => (.result result, x.setSession s { session with results })
    | none =>
      if session.results.closed || !x.canReceive s session then
        (.disconnected, x)
      else
        (.empty, x)

/-- The receiving side of a session goes away: results for it are lost. -/
def dropResults (x : Exchange) (s : SessionId) : Exchange :=
  match x.sessions[s]? with
  | none => x
  | some session => x.setSession s { session with results := session.results.discard }

end Exchange

end TaskFarm
