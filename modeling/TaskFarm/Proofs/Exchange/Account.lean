import TaskFarm.Exchange.Fetching
import TaskFarm.Exchange.Sending
import TaskFarm.Exchange.Submitting
import TaskFarm.Proofs.Channel

/-!
# An account of what happens at an exchange

Everybody who deals with an exchange does so in single steps, and any list of possible deals is a
history of the exchange.  The account written along notes what cannot be seen in the exchange
itself any more: which tasks were sent, which of them got a route, and what has become of them.
-/

namespace TaskFarm

/-- What somebody does at an exchange. -/
inductive Deal where
  | openSession
  | send (s : SessionId) (party : Party) (task : Task)
  | resumeSend (s : SessionId) (party : Party)
  | withdrawSend (s : SessionId) (party : Party)
  /-- The sending side of a session goes away. -/
  | dropTasks (s : SessionId)
  | relay (s : SessionId)
  | startFetch (party : Party)
  | fetch (party : Party) (now : Nat)
  | leaveLine (party : Party)
  | submit (party : Party) (result : TaskResult)
  | resumeSubmit (s : SessionId) (party : Party) (id : TaskId)
  | receive (s : SessionId)
  /-- The receiving side of a session goes away. -/
  | dropResults (s : SessionId)
  | close

/-- What has happened at an exchange, the oldest first. -/
structure Account where
  /-- The tasks that sessions have sent. -/
  sent : List (SessionId × Task)
  /-- The routes that relays have noted. -/
  registered : List (TaskId × SessionId)
  /-- The tasks whose routes relays have forgotten, the queue being closed. -/
  withdrawn : List TaskId
  /-- The tasks that relays have put into the queue. -/
  queued : List TaskId
  fetched : List TaskId
  /-- The results submitted for which there was a route. -/
  submitted : List TaskId
  received : List (SessionId × TaskResult)
  /-- The sessions whose receiving side has gone away. -/
  dropped : List SessionId

namespace Account

/-- Nothing has happened. -/
def blank : Account :=
  { sent := [], registered := [], withdrawn := [], queued := [], fetched := [], submitted := [],
    received := [], dropped := [] }

/-- The tasks that have had a route. -/
def known (acc : Account) : List TaskId :=
  acc.registered.map Prod.fst

/-- The tasks whose route is used up or forgotten. -/
def settled (acc : Account) : List TaskId :=
  acc.submitted ++ acc.withdrawn

/-- No two of the tasks that sessions have sent share an id. -/
def SentOnce (acc : Account) : Prop :=
  (acc.sent.map fun entry => entry.2.id).Nodup

/-- A session has sent a task of this id. -/
def HasSent (acc : Account) (s : SessionId) (id : TaskId) : Prop :=
  ∃ task, (s, task) ∈ acc.sent ∧ task.id = id

end Account

/-- An exchange with the account of what has happened at it. -/
structure Audited where
  account : Account
  exchange : Exchange

/-- What the relay of a session is doing. -/
def Exchange.relay? (x : Exchange) (s : SessionId) : Option Relay :=
  (x.sessions[s]?).map Session.relay

/-- The task for which a place is reserved in the channel of a session. -/
def Exchange.reserved? (x : Exchange) (s : SessionId) (party : Party) : Option Task :=
  (x.sessions[s]?).bind fun session => session.tasks.reserved? party

namespace Audited

/-- An exchange without sessions, at which nothing has happened. -/
def opened (settings : QueueSettings) : Audited :=
  ⟨.blank, .opened settings⟩

/-- A session has sent a task if its channel has let it in. -/
def noteSent (a : Audited) (s : SessionId) (task? : Option Task) : Sending → Audited
  | .accepted => { a with account.sent := a.account.sent ++ task?.toList.map fun t => (s, t) }
  | _ => a

/-- A relay that goes on to hold a task has noted its route.  One that becomes idle has put its task
into the queue, and one that ends with a task has withdrawn it, unless its route was used. -/
def noteRelay (a : Audited) (s : SessionId) (old new : Option Relay) (routed : TaskId → Bool) :
    Audited :=
  match old, new with
  | some .idle, some (.holding task) =>
    { a with account.registered := a.account.registered ++ [(task.id, s)] }
  | some (.holding task), some .idle =>
    { a with account.queued := a.account.queued ++ [task.id] }
  | some (.holding task), some .ended =>
    if routed task.id then
      { a with account.withdrawn := a.account.withdrawn ++ [task.id] }
    else
      a
  | _, _ => a

def noteFetched (a : Audited) : Option FetchReply → Audited
  | some (.task task) => { a with account.fetched := a.account.fetched ++ [task.id] }
  | _ => a

def noteSubmitted (a : Audited) (id : TaskId) (routed : Bool) : Audited :=
  if routed then { a with account.submitted := a.account.submitted ++ [id] } else a

def noteReceived (a : Audited) (s : SessionId) : Received → Audited
  | .result r => { a with account.received := a.account.received ++ [(s, r)] }
  | _ => a

def noteDropped (a : Audited) (s : SessionId) : Audited :=
  { a with account.dropped := a.account.dropped ++ [s] }

/-- The exchange after a deal and the account of it, if the deal is possible. -/
def deal? (a : Audited) : Deal → Option Audited
  | .openSession => some { a with exchange := a.exchange.openSession.2 }
  | .send s party task =>
    let (sending, x) := a.exchange.send s party task
    some ({ a with exchange := x }.noteSent s (some task) sending)
  | .resumeSend s party =>
    (a.exchange.resumeSend? s party).map fun (sending, x) =>
      { a with exchange := x }.noteSent s (a.exchange.reserved? s party) sending
  | .withdrawSend s party => some { a with exchange := a.exchange.withdrawSend s party }
  | .dropTasks s => some { a with exchange := a.exchange.dropTasks s }
  | .relay s =>
    (a.exchange.relayStep? s).map fun x =>
      { a with exchange := x }.noteRelay s (a.exchange.relay? s) (x.relay? s)
        fun id => (a.exchange.route? id).isSome
  | .startFetch party => some { a with exchange := a.exchange.startFetch party }
  | .fetch party now =>
    (a.exchange.fetchStep? party now).map fun (reply, x) =>
      { a with exchange := x }.noteFetched reply
  | .leaveLine party => some { a with exchange := a.exchange.leaveLine party }
  | .submit party result =>
    some ({ a with exchange := (a.exchange.submit party result).2 }.noteSubmitted result.id
      (a.exchange.route? result.id).isSome)
  | .resumeSubmit s party id =>
    (a.exchange.resumeSubmit? s party id).map fun (_, x) => { a with exchange := x }
  | .receive s =>
    let (received, x) := a.exchange.receive s
    some ({ a with exchange := x }.noteReceived s received)
  | .dropResults s => some ({ a with exchange := a.exchange.dropResults s }.noteDropped s)
  | .close => some { a with exchange := a.exchange.close }

/-- The exchange after a list of deals and the account of them, if each deal is possible at its
time. -/
def deals? (a : Audited) : List Deal → Option Audited
  | [] => some a
  | d :: rest => (a.deal? d).bind fun a => a.deals? rest

end Audited

end TaskFarm
