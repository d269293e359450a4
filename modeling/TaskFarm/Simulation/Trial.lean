import TaskFarm.Exchange.Fetching
import TaskFarm.Exchange.Sending
import TaskFarm.Exchange.Submitting

/-!
# Scripted dealings with an exchange

A trial carries out a list of requests to one exchange.  After each request everything goes on
until everybody waits; a request that is not answered by then is answered in a later step.  The
clock moves only when a request says so, and stops at every deadline on its way.
-/

namespace TaskFarm.Simulation

inductive Trial.Request where
  | openSession
  | send (session : SessionId) (task : Task)
  | fetch
  | submit (result : TaskResult)
  | receive (session : SessionId)
  | dropTasks (session : SessionId)
  | dropResults (session : SessionId)
  /-- The owner of a session goes away. -/
  | leave (session : SessionId)
  | close
  | sleep (duration : Nat)
  | settings

inductive Trial.Answer where
  | done
  | session (s : SessionId)
  | notSent
  | fetched (reply : FetchReply)
  | submitted (error : Option TransportError)
  | received (r : Received)
  | settings (s : QueueSettings)

inductive Trial.Wait where
  | toSend (session : SessionId)
  | toFetch
  | toSubmit (session : SessionId) (id : TaskId)

/-- The state of a trial.  Parties are the numbers of the requests. -/
structure Trial where
  exchange : Exchange
  waits : List (Party × Trial.Wait)
  /-- The answers that came since the last step, the latest first. -/
  answers : List (Party × Trial.Answer)
  now : Nat

/-- What is seen after a request. -/
structure Trial.Observation where
  /-- The answer to the request itself, if it came at once. -/
  reply : Option Trial.Answer
  /-- The answers to earlier requests that came meanwhile, by their number. -/
  woken : List (Party × Trial.Answer)
  pending : Nat
  inFlight : Nat
  closed : Bool
  now : Nat

namespace Trial

/-- A trial of an exchange without sessions. -/
def start (settings : QueueSettings) : Trial :=
  { exchange := .opened settings, waits := [], answers := [], now := 0 }

def answer (t : Trial) (party : Party) (a : Answer) : Trial :=
  { t with
    waits := t.waits.filter fun w => !(w.1 == party)
    answers := (party, a) :: t.answers }

def wait (t : Trial) (party : Party) (w : Wait) : Trial :=
  { t with waits := (t.waits.filter fun other => !(other.1 == party)) ++ [(party, w)] }

def afterSending (t : Trial) (party : Party) (s : SessionId) : Sending → Trial
  | .accepted => t.answer party .done
  | .refused => t.answer party .notSent
  | .waiting => t.wait party (.toSend s)

def afterSubmission (t : Trial) (party : Party) (id : TaskId) : Submission → Trial
  | .delivered => t.answer party (.submitted none)
  | .failed error => t.answer party (.submitted (some error))
  | .waiting s => t.wait party (.toSubmit s id)

def afterFetchStep (t : Trial) (party : Party) : Exchange.FetchStep → Trial
  | (some reply, exchange) => { t with exchange }.answer party (.fetched reply)
  | (none, exchange) => { t with exchange }

/-- One step of a party that waits, unless it has to wait on. -/
def partyStep? (t : Trial) (party : Party) : Wait → Option Trial
  | .toSend s =>
    (t.exchange.resumeSend? s party).map fun (sending, exchange) =>
      { t with exchange }.afterSending party s sending
  | .toFetch => (t.exchange.fetchStep? party t.now).map (t.afterFetchStep party)
  | .toSubmit s id =>
    (t.exchange.resumeSubmit? s party id).map fun (submission, exchange) =>
      { t with exchange }.afterSubmission party id submission

/-- One step of a relay that can go on. -/
def relayStep? (t : Trial) : Option Trial :=
  (List.range t.exchange.sessions.size).findSome? fun s =>
    (t.exchange.relayStep? s).map fun exchange => { t with exchange }

/-- One step of anybody who can go on: relays first, then the parties in the order in which they
began to wait. -/
def step? (t : Trial) : Option Trial :=
  t.relayStep?.or (t.waits.findSome? fun w => t.partyStep? w.1 w.2)

/-- Go on until everybody waits.  Each session and each party makes a few steps only. -/
def settle (t : Trial) : Trial :=
  settleBy step? (16 * (t.exchange.sessions.size + t.waits.length + 4)) t

/-- Let time pass up to a moment, stopping at every deadline before it. -/
def sleepUntil (moment : Nat) : Nat → Trial → Trial
  | 0, t => { t with now := moment }
  | fuel + 1, t =>
    match t.exchange.fetchDeadline? with
    | some deadline =>
      if deadline ≤ moment then
        sleepUntil moment fuel { t with now := max t.now deadline }.settle
      else
        { t with now := moment }
    | none => { t with now := moment }

/-- A party makes its request. -/
def begin (t : Trial) (party : Party) : Request → Trial
  | .openSession =>
    let (s, exchange) := t.exchange.openSession
    { t with exchange }.answer party (.session s)
  | .send s task =>
    let (sending, exchange) := t.exchange.send s party task
    { t with exchange }.afterSending party s sending
  | .fetch => { t with exchange := t.exchange.startFetch party }.wait party .toFetch
  | .submit result =>
    let (submission, exchange) := t.exchange.submit party result
    { t with exchange }.afterSubmission party result.id submission
  | .receive s =>
    let (received, exchange) := t.exchange.receive s
    { t with exchange }.answer party (.received received)
  | .dropTasks s => { t with exchange := t.exchange.dropTasks s }.answer party .done
  | .dropResults s => { t with exchange := t.exchange.dropResults s }.answer party .done
  | .leave s =>
    { t with exchange := (t.exchange.dropTasks s).dropResults s }.answer party .done
  | .close => { t with exchange := t.exchange.close }.answer party .done
  | .sleep duration => (sleepUntil (t.now + duration) (t.waits.length + 1) t).answer party .done
  | .settings => t.answer party (.settings t.exchange.settings)

/-- The answers to earlier requests, by their number. -/
def wokenBefore (t : Trial) (party : Party) : List (Party × Answer) :=
  (t.answers.filter fun a => !(a.1 == party)).mergeSort fun a b => a.1 ≤ b.1

/-- A request is carried out and everything settles. -/
def request (t : Trial) (party : Party) (r : Request) : Observation × Trial :=
  let t := ({ t with answers := [] }.begin party r).settle
  ({ reply := (t.answers.find? fun a => a.1 == party).map Prod.snd
     woken := t.wokenBefore party
     pending := t.exchange.pending
     inFlight := t.exchange.inFlight
     closed := t.exchange.closed
     now := t.now }, t)

/-- The observations of a list of requests, the first of which has the given number. -/
def requests (first : Party) : List Request → Trial → List Observation
  | [], _ => []
  | r :: rest, t =>
    let (seen, t) := t.request first r
    seen :: requests (first + 1) rest t

end Trial

end TaskFarm.Simulation
