import TaskFarm.Exchange.Basic

/-!
# From a session to the queue

A session is opened, tasks are sent on it, and its relay carries them to the queue.  The relay of a
closed exchange drops the next task and ends.
-/

namespace TaskFarm.Exchange

def openSession (x : Exchange) : SessionId × Exchange :=
  (x.sessions.size, { x with sessions := x.sessions.push .opened })

/-- Somebody sends a task on a session.  Nobody can do so when the sending side is gone. -/
def send (x : Exchange) (s : SessionId) (party : Party) (task : Task) : Sending × Exchange :=
  match x.sessions[s]? with
  | none => (.refused, x)
  | some session =>
    if session.senderGone then
      (.refused, x)
    else
      let (sending, tasks) := session.tasks.offer party task
      (sending, x.setSession s { session with tasks })

/-- Somebody who waits to send on a session goes on. -/
def resumeSend? (x : Exchange) (s : SessionId) (party : Party) : Option (Sending × Exchange) :=
  (x.sessions[s]?).bind fun session =>
    (session.tasks.resume? party).map fun (sending, tasks) =>
      (sending, x.setSession s { session with tasks })

def isSending (x : Exchange) (s : SessionId) (party : Party) : Bool :=
  match x.sessions[s]? with
  | none => false
  | some session => session.tasks.isPending party

/-- Somebody tries to send a task on a session, for the first time or after waiting. -/
def attemptSend? (x : Exchange) (s : SessionId) (party : Party) (task : Task) :
    Option (Sending × Exchange) :=
  if x.isSending s party then x.resumeSend? s party else some (x.send s party task)

/-- Somebody who waits to send on a session gives up. -/
def withdrawSend (x : Exchange) (s : SessionId) (party : Party) : Exchange :=
  match x.sessions[s]? with
  | none => x
  | some session => x.setSession s { session with tasks := session.tasks.withdraw party }

/-- The relay of a session ends: tasks that it has not taken are lost, and nobody can send on. -/
def endRelay (x : Exchange) (s : SessionId) (session : Session) : Exchange :=
  x.setSession s { session with relay := .ended, tasks := session.tasks.discard }

/-- The relay of a session takes the next task.  It notes the route of the task before the task gets
into the queue, so that its result finds the way back however soon it comes. -/
def relayTakes? (x : Exchange) (s : SessionId) (session : Session) : Option Exchange :=
  match session.tasks.take? with
  | some (task, tasks) =>
    if x.closed then
      some (x.endRelay s { session with tasks })
    else
      some ((x.addRoute task.id s).setSession s { session with tasks, relay := .holding task })
  | none =>
    if session.senderGone && session.tasks.granted.isEmpty && session.tasks.waiting.isEmpty then
      some (x.endRelay s session)
    else
      none

/-- The relay of a session puts the task that it holds into the queue, for the first time or after
waiting.  If the queue is closed, it forgets the route and ends. -/
def relayPuts? (x : Exchange) (s : SessionId) (session : Session) (task : Task) : Option Exchange :=
  (x.queue.attempt? s task).map fun (sending, queue) =>
    match sending with
    | .accepted => { x with queue }.setSession s { session with relay := .idle }
    | .waiting => { x with queue }
    | .refused => ({ x with queue }.removeRoute task.id).endRelay s session

/-- One step of the relay of a session, unless it has to wait or has ended. -/
def relayStep? (x : Exchange) (s : SessionId) : Option Exchange :=
  (x.sessions[s]?).bind fun session =>
    match session.relay with
    | .idle => x.relayTakes? s session
    | .holding task => x.relayPuts? s session task
    | .ended => none

/-- The sending side of a session goes away. -/
def dropTasks (x : Exchange) (s : SessionId) : Exchange :=
  match x.sessions[s]? with
  | none => x
  | some session => x.setSession s { session with senderGone := true }

end TaskFarm.Exchange
