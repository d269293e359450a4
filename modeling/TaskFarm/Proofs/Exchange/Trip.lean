import TaskFarm.Proofs.Exchange.Steps
import TaskFarm.Walk
import TaskFarm.Worker.Basic

/-!
# The trip of a task through an exchange that is empty otherwise

A task that is the only one at an exchange goes from the channel of its session into the hands of
the relay, into the queue, to a worker, and its result comes back to the session.  At every place
just one thing can happen next, and nothing stops it.
-/

namespace TaskFarm

/-- Where the only task is. -/
inductive Trip where
  /-- No task is out. -/
  | home
  /-- In the channel of its session. -/
  | sent (task : Task)
  /-- In the hands of the relay. -/
  | held (task : Task)
  | queued (task : Task)
  /-- In the queue, and a worker has got in line for it. -/
  | sought (task : Task)
  | computed (task : Task) (doneAt : Nat)
  /-- The result is in the session. -/
  | answered (task : Task)

namespace Trip

def task? : Trip → Option Task
  | home => none
  | sent task | held task | queued task | sought task | computed task _ | answered task => some task

/-- What the session of the task holds. -/
def session : Trip → Session
  | sent task => { Session.opened with tasks := { Channel.empty 1 with buffer := [task] } }
  | held task => { Session.opened with relay := .holding task }
  | answered task =>
    { Session.opened with results := { Channel.empty 1 with buffer := [task.result] } }
  | home | queued _ | sought _ | computed _ _ => .opened

def queue : Trip → List Task
  | queued task | sought task => [task]
  | home | sent _ | held _ | computed _ _ | answered _ => []

def routes (s : SessionId) : Trip → List (TaskId × SessionId)
  | held task | queued task | sought task | computed task _ => [(task.id, s)]
  | home | sent _ | answered _ => []

def line : Trip → List PendingFetch
  | sought _ => [⟨0, .inLine⟩]
  | home | sent _ | held _ | queued _ | computed _ _ | answered _ => []

/-- What the worker does that comes for the task. -/
def occupation : Trip → Occupation
  | sought _ => .fetching
  | computed task doneAt => .computing task doneAt
  | home | sent _ | held _ | queued _ | answered _ => .ready

/-- The steps until the result is in the session. -/
def delay (now : Nat) : Trip → Nat
  | home | answered _ => 0
  | computed _ doneAt => if doneAt ≤ now then 1 else 2
  | sought _ => 3
  | queued _ => 4
  | held _ => 5
  | sent _ => 6

/-- A task is out while the walk awaits its result. -/
def Fits (trip : Trip) : Stage → Prop
  | .walking | .offering _ _ | .finished _ => trip = .home
  | .awaiting _ id => ∃ task, trip.task? = some task ∧ task.id = id
  | .stuck => False

end Trip

namespace Exchange

/-- Nothing is at an exchange but what a trip puts there. -/
structure Hosts (x : Exchange) (s : SessionId) (trip : Trip) : Prop where
  queue_eq : ∃ room, x.queue = { Channel.empty (room + 1) with buffer := trip.queue }
  routes_eq : x.routes = trip.routes s
  line_eq : x.line = trip.line
  isOpen : x.closed = false

/-- The same, together with the session of the trip. -/
structure Bears (x : Exchange) (s : SessionId) (trip : Trip) : Prop extends Hosts x s trip where
  session_eq : x.sessions[s]? = some trip.session

variable {x : Exchange} {s : SessionId} {task : Task} {trip : Trip}

theorem Bears.sends (h : x.Bears s .home) (party : Party) (task : Task) :
    ∃ x', x.attemptSend? s party task = some (.accepted, x') ∧ x'.Bears s (.sent task) := by
  refine ⟨x.setSession s (Trip.sent task).session, ?_,
    ⟨h.queue_eq, h.routes_eq, h.line_eq, h.isOpen⟩, setSession_self h.session_eq _⟩
  simp [attemptSend?, isSending, h.session_eq, Trip.session, Session.opened, Channel.isPending,
    Channel.isGranted, Channel.empty, send, Channel.offer, Channel.hasRoom, Channel.occupied]

theorem Bears.takes (h : x.Bears s (.sent task)) :
    ∃ x', x.relayStep? s = some x' ∧ x'.Bears s (.held task) := by
  refine ⟨(x.addRoute task.id s).setSession s (Trip.held task).session, ?_,
    ⟨h.queue_eq, ?_, h.line_eq, h.isOpen⟩, setSession_self (x := x.addRoute task.id s) h.session_eq _⟩
  · simp [relayStep?, h.session_eq, Trip.session, Session.opened, relayTakes?, Channel.take?,
      Channel.grant, Channel.empty, h.isOpen]
  · simp [setSession, addRoute, h.routes_eq, Trip.routes]

theorem Bears.puts (h : x.Bears s (.held task)) :
    ∃ x', x.relayStep? s = some x' ∧ x'.Bears s (.queued task) := by
  obtain ⟨room, hqueue⟩ := h.queue_eq
  refine ⟨({ x with queue := { Channel.empty (room + 1) with buffer := [task] } } :
    Exchange).setSession s (Trip.queued task).session, ?_,
    ⟨⟨room, rfl⟩, h.routes_eq, h.line_eq, h.isOpen⟩, setSession_self
      (x := { x with queue := _ }) h.session_eq _⟩
  simp [relayStep?, h.session_eq, Trip.session, Session.opened, relayPuts?, hqueue, Trip.queue,
    Channel.attempt?, Channel.isPending, Channel.isGranted, Channel.empty, Channel.offer,
    Channel.hasRoom, Channel.occupied]

/-- The relay rests when it has brought the task to the queue. -/
theorem Bears.relay_rests (h : x.Bears s trip) (hsession : trip.session = .opened) :
    x.relayStep? s = none := by
  simp [relayStep?, h.session_eq, hsession, Session.opened, relayTakes?, Channel.take?,
    Channel.empty]

theorem Bears.seeks (h : x.Bears s (.queued task)) : (x.startFetch 0).Bears s (.sought task) where
  queue_eq := h.queue_eq
  routes_eq := h.routes_eq
  line_eq := by simp [startFetch, h.line_eq, Trip.line]
  isOpen := h.isOpen
  session_eq := h.session_eq

theorem Bears.fetches (h : x.Bears s (.sought task)) (now doneAt : Nat) :
    ∃ x', x.fetchStep? 0 now = some (some (.task task), x') ∧
      x'.Bears s (.computed task doneAt) := by
  obtain ⟨room, hqueue⟩ := h.queue_eq
  refine ⟨({ x with queue := .empty (room + 1) } : Exchange).leaveLine 0, ?_,
    ⟨⟨room, rfl⟩, h.routes_eq, ?_, h.isOpen⟩, h.session_eq⟩
  · simp [fetchStep?, fetchOf?, h.line_eq, Trip.line, isFirst, beginTurn, closeQueueIfClosed,
      h.isOpen, takeTask?, hqueue, Trip.queue, Channel.take?, Channel.grant, Channel.empty,
      answered]
  · simp [leaveLine, lineWithout, h.line_eq, Trip.line]

theorem Bears.submits {doneAt : Nat} (h : x.Bears s (.computed task doneAt)) (party : Party) :
    ∃ x', x.submit party task.result = (.delivered, x') ∧ x'.Bears s (.answered task) := by
  have hid : task.result.id = task.id := by
    unfold Task.result
    cases task.compute <;> rfl
  have hsession := h.session_eq
  refine ⟨(x.removeRoute task.id).setSession s (Trip.answered task).session, ?_,
    ⟨h.queue_eq, ?_, h.line_eq, h.isOpen⟩,
    setSession_self (x := x.removeRoute task.id) h.session_eq _⟩
  · simp [submit, hid, route?, h.routes_eq, Trip.routes, removeRoute, hsession, Trip.session,
      Session.opened, Channel.offer, Channel.hasRoom, Channel.occupied, Channel.empty,
      Submission.of]
  · simp [setSession, removeRoute, h.routes_eq, Trip.routes]

theorem Bears.receives (h : x.Bears s (.answered task)) :
    ∃ x', x.receive s = (.result task.result, x') ∧ x'.Bears s .home := by
  refine ⟨x.setSession s .opened, ?_,
    ⟨h.queue_eq, h.routes_eq, h.line_eq, h.isOpen⟩, setSession_self h.session_eq _⟩
  simp [receive, h.session_eq, Trip.session, Session.opened, Channel.take?, Channel.grant,
    Channel.empty]

/-- Nothing has come yet while the result is not in the session. -/
theorem Bears.receives_nothing (h : x.Bears s trip) (htask : ∀ task, trip ≠ .answered task) :
    x.receive s = (.empty, x) := by
  have hsession : trip.session.results = .empty 1 ∧ trip.session.hasEnded = false := by
    cases trip with
    | answered task => exact absurd rfl (htask task)
    | home | sent | held | queued | sought | computed => exact ⟨rfl, rfl⟩
  simp [receive, h.session_eq, hsession.1, hsession.2, Channel.take?, Channel.empty, canReceive]

/-- The session of a walk that is over is given up. -/
theorem Hosts.release (h : x.Hosts s .home) (s' : SessionId) :
    ((x.dropTasks s').dropResults s').Hosts s .home := by
  have hkept : ∀ y : Exchange, y.Hosts s .home → ∀ session, (y.setSession s' session).Hosts s .home :=
    fun y hy session => ⟨hy.queue_eq, hy.routes_eq, hy.line_eq, hy.isOpen⟩
  have hdropped : (x.dropTasks s').Hosts s .home := by
    unfold dropTasks
    split
    · exact h
    · exact hkept _ h _
  unfold dropResults
  split
  · exact hdropped
  · exact hkept _ hdropped _

end Exchange

end TaskFarm
