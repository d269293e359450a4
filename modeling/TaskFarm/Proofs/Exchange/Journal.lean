import TaskFarm.Proofs.Exchange.Deals
import Mathlib.Logic.Function.Basic

/-!
# A journal of the tasks that pass through an exchange

The journal notes a task when somebody begins to send it, when the channel of its session lets it
in, when a relay puts it into the queue and when it is fetched.  Nothing is assumed of the tasks:
two of them may share an id.

What a deal does to the tasks on their way depends only on the queue and on the outlets of the
sessions.  `Conveys` lists all that it can be; statements about the way of tasks follow from it and
do not look at deals again.
-/

namespace TaskFarm

/-- The part of a session through which its tasks go out. -/
structure Outlet where
  tasks : Channel Party Task
  relay : Relay

/-- The task that the relay has in hand. -/
def Outlet.held (o : Outlet) : List Task :=
  match o.relay with
  | .holding task => [task]
  | _ => []

def Session.outlet (s : Session) : Outlet :=
  ⟨s.tasks, s.relay⟩

/-- The outlet of a session; one that is not open yet has that of a new one. -/
def Exchange.outlet (x : Exchange) (s : SessionId) : Outlet :=
  ((x.sessions[s]?).getD .opened).outlet

/-- The tasks that have passed through an exchange, the oldest first. -/
structure Journal where
  /-- The tasks that somebody began to send. -/
  begun : List (SessionId × Task)
  sent : List (SessionId × Task)
  queued : List (SessionId × Task)
  fetched : List (Party × Task)

/-- The tasks of one session. -/
def tasksOf (s : SessionId) (entries : List (SessionId × Task)) : List Task :=
  (entries.filter fun entry => entry.1 == s).map Prod.snd

@[simp] theorem tasksOf_append (s : SessionId) (es es' : List (SessionId × Task)) :
    tasksOf s (es ++ es') = tasksOf s es ++ tasksOf s es' := by
  simp [tasksOf]

@[simp] theorem tasksOf_self (s : SessionId) (task : Task) : tasksOf s [(s, task)] = [task] := by
  simp [tasksOf]

theorem tasksOf_ne {s s' : SessionId} (hne : s' ≠ s) (task : Task) :
    tasksOf s [(s', task)] = [] := by
  simp [tasksOf, hne]

namespace Journal

def blank : Journal :=
  { begun := [], sent := [], queued := [], fetched := [] }

def noteSend (j : Journal) (s : SessionId) (task : Task) : Sending → Journal
  | .accepted =>
    { j with begun := j.begun ++ [(s, task)], sent := j.sent ++ [(s, task)] }
  | .waiting => { j with begun := j.begun ++ [(s, task)] }
  | .refused => j

def noteResume (j : Journal) (s : SessionId) (task? : Option Task) : Sending → Journal
  | .accepted => { j with sent := j.sent ++ task?.toList.map fun task => (s, task) }
  | _ => j

/-- A relay that held a task and becomes idle has put it into the queue. -/
def noteRelay (j : Journal) (s : SessionId) (old new : Option Relay) : Journal :=
  match old, new with
  | some (.holding task), some .idle => { j with queued := j.queued ++ [(s, task)] }
  | _, _ => j

def noteFetch (j : Journal) (party : Party) : Option FetchReply → Journal
  | some (.task task) => { j with fetched := j.fetched ++ [(party, task)] }
  | _ => j

/-- The journal after a deal that takes the exchange `x` to `x'`. -/
def note (j : Journal) (x : Exchange) (d : Deal) (x' : Exchange) : Journal :=
  match d with
  | .send s party task => j.noteSend s task (x.send s party task).1
  | .resumeSend s party =>
    match x.resumeSend? s party with
    | some (sending, _) => j.noteResume s (x.reserved? s party) sending
    | none => j
  | .relay s => j.noteRelay s (x.relay? s) (x'.relay? s)
  | .fetch party now =>
    match x.fetchStep? party now with
    | some (reply, _) => j.noteFetch party reply
    | none => j
  | _ => j

end Journal

/-- An audited exchange with the journal of its tasks. -/
structure Journaled extends Audited where
  journal : Journal

namespace Journaled

def opened (settings : QueueSettings) : Journaled :=
  { Audited.opened settings with journal := .blank }

/-- The exchange after a deal with all that is noted of it, if the deal is possible. -/
def deal? (j : Journaled) (d : Deal) : Option Journaled :=
  (j.toAudited.deal? d).map fun a =>
    { a with journal := j.journal.note j.exchange d a.exchange }

def deals? (j : Journaled) : List Deal → Option Journaled
  | [] => some j
  | d :: rest => (j.deal? d).bind fun j => j.deals? rest

end Journaled

namespace Exchange

/-- The exchange after a deal, without any notes. -/
def deal? (x : Exchange) : Deal → Option Exchange
  | .openSession => some x.openSession.2
  | .send s party task => some (x.send s party task).2
  | .resumeSend s party => (x.resumeSend? s party).map Prod.snd
  | .withdrawSend s party => some (x.withdrawSend s party)
  | .dropTasks s => some (x.dropTasks s)
  | .relay s => x.relayStep? s
  | .startFetch party => some (x.startFetch party)
  | .fetch party now => (x.fetchStep? party now).map Prod.snd
  | .leaveLine party => some (x.leaveLine party)
  | .submit party result => some (x.submit party result).2
  | .resumeSubmit s party id => (x.resumeSubmit? s party id).map Prod.snd
  | .receive s => some (x.receive s).2
  | .dropResults s => some (x.dropResults s)
  | .close => some x.close

variable {x x' : Exchange} {s : SessionId} {session : Session}

theorem outlet_eq (hs : x.sessions[s]? = some session) : x.outlet s = session.outlet := by
  simp [outlet, hs]

theorem relay?_eq_holding {task : Task} :
    x.relay? s = some (.holding task) ↔ (x.outlet s).relay = .holding task := by
  unfold relay? outlet
  cases x.sessions[s]? with
  | none => simp [Session.opened, Session.outlet]
  | some session => simp [Session.outlet]

theorem outlet_setSession (hs : x.sessions[s]? = some session) (session' : Session) :
    (x.setSession s session').outlet = Function.update x.outlet s session'.outlet := by
  funext s'
  by_cases he : s' = s
  · subst he
    simp [outlet_eq (setSession_self hs session')]
  · simp [outlet, setSession_ne session' (Ne.symm he), he]

/-- A session keeps its outlet if its tasks and its relay stay as they are. -/
theorem outlet_setSession_same (hs : x.sessions[s]? = some session) {session' : Session}
    (hsame : session'.outlet = session.outlet) :
    (x.setSession s session').outlet = x.outlet := by
  rw [outlet_setSession hs, hsame]
  exact Function.update_eq_self_iff.mpr (outlet_eq hs).symm

theorem outlet_openSession (x : Exchange) : x.openSession.2.outlet = x.outlet := by
  funext s
  by_cases he : s = x.sessions.size
  · subst he
    simp [outlet, openSession]
  · simp [outlet, openSession, Array.getElem?_push, he]

/-- What a deal does to the tasks on their way, and what the journal notes of it. -/
inductive Conveys (j : Journal) (x : Exchange) : Deal → Journal → Exchange → Prop
  /-- Every task stays where it is; at most the queue is closed. -/
  | rests {d : Deal} {x' : Exchange} (hqueue : x'.queue = x.queue ∨ x'.queue = x.queue.close)
      (houtlets : x'.outlet = x.outlet) : Conveys j x d j x'
  | offers {x' : Exchange} {s : SessionId} {party : Party} {task : Task} {sending : Sending}
      {tasks : Channel Party Task} (hoffer : (x.outlet s).tasks.offer party task = (sending, tasks))
      (hqueue : x'.queue = x.queue)
      (houtlets : x'.outlet = Function.update x.outlet s { x.outlet s with tasks }) :
      Conveys j x (.send s party task) (j.noteSend s task sending) x'
  | resumes {x' : Exchange} {s : SessionId} {party : Party} {sending : Sending}
      {tasks : Channel Party Task}
      (hresume : (x.outlet s).tasks.resume? party = some (sending, tasks))
      (hqueue : x'.queue = x.queue)
      (houtlets : x'.outlet = Function.update x.outlet s { x.outlet s with tasks }) :
      Conveys j x (.resumeSend s party)
        (j.noteResume s ((x.outlet s).tasks.reserved? party) sending) x'
  | withdraws {x' : Exchange} {s : SessionId} {party : Party} (hqueue : x'.queue = x.queue)
      (houtlets : x'.outlet = Function.update x.outlet s
        { x.outlet s with tasks := (x.outlet s).tasks.withdraw party }) :
      Conveys j x (.withdrawSend s party) j x'
  | takes {x' : Exchange} {s : SessionId} {task : Task} {tasks : Channel Party Task}
      (hrelay : (x.outlet s).relay = .idle) (htake : (x.outlet s).tasks.take? = some (task, tasks))
      (hopen : x.closed = false) (hqueue : x'.queue = x.queue)
      (houtlets : x'.outlet = Function.update x.outlet s ⟨tasks, .holding task⟩) :
      Conveys j x (.relay s) j x'
  | ends {x' : Exchange} {s : SessionId} {tasks : Channel Party Task}
      (hrelay : (x.outlet s).relay = .idle)
      (htasks : tasks = (x.outlet s).tasks ∨ ∃ task, (x.outlet s).tasks.take? = some (task, tasks))
      (hqueue : x'.queue = x.queue)
      (houtlets : x'.outlet = Function.update x.outlet s ⟨tasks.discard, .ended⟩) :
      Conveys j x (.relay s) j x'
  | waits {x' : Exchange} {s : SessionId} {task : Task}
      (hrelay : (x.outlet s).relay = .holding task)
      (hattempt : x.queue.attempt? s task = some (.waiting, x'.queue))
      (houtlets : x'.outlet = x.outlet) : Conveys j x (.relay s) j x'
  | puts {x' : Exchange} {s : SessionId} {task : Task}
      (hrelay : (x.outlet s).relay = .holding task)
      (hattempt : x.queue.attempt? s task = some (.accepted, x'.queue))
      (houtlets : x'.outlet = Function.update x.outlet s ⟨(x.outlet s).tasks, .idle⟩) :
      Conveys j x (.relay s) { j with queued := j.queued ++ [(s, task)] } x'
  | drops {x' : Exchange} {s : SessionId} {task : Task}
      (hrelay : (x.outlet s).relay = .holding task)
      (hattempt : x.queue.attempt? s task = some (.refused, x'.queue))
      (houtlets : x'.outlet =
        Function.update x.outlet s ⟨(x.outlet s).tasks.discard, .ended⟩) :
      Conveys j x (.relay s) j x'
  | fetches {x' : Exchange} {party : Party} {now : Nat} {task : Task}
      {queue : Channel SessionId Task}
      (hqueue : queue = x.queue ∨ queue = x.queue.close)
      (htake : queue.take? = some (task, x'.queue)) (houtlets : x'.outlet = x.outlet) :
      Conveys j x (.fetch party now) { j with fetched := j.fetched ++ [(party, task)] } x'

variable {j : Journal} {d : Deal}

theorem conveys_send (s : SessionId) (party : Party) (task : Task) :
    Conveys j x (.send s party task) (j.note x (.send s party task) x')
      (x.send s party task).2 := by
  cases hsend : x.send s party task with
  | mk sending next =>
    simp only [Journal.note, hsend]
    rcases send_cases hsend with ⟨rfl, rfl, -⟩ | ⟨session, tasks, hs, -, hoffer, rfl⟩
    · exact .rests (.inl rfl) rfl
    · have ho := outlet_eq hs
      refine .offers (s := s) (by rwa [ho]) rfl ?_
      rw [outlet_setSession hs, ho]
      rfl

theorem conveys_resumeSend? {party : Party} {sending : Sending}
    (h : x.resumeSend? s party = some (sending, x')) :
    Conveys j x (.resumeSend s party) (j.note x (.resumeSend s party) x') x' := by
  obtain ⟨session, tasks, hs, hresume, rfl⟩ := resumeSend?_cases h
  have ho := outlet_eq hs
  have hreserved : x.reserved? s party = (x.outlet s).tasks.reserved? party := by
    simp [reserved?, hs, ho, Session.outlet]
  simp only [Journal.note, h, hreserved]
  refine .resumes (by rwa [ho]) rfl ?_
  rw [outlet_setSession hs, ho]
  rfl

theorem conveys_withdrawSend (x : Exchange) (s : SessionId) (party : Party) :
    Conveys j x (.withdrawSend s party) j (x.withdrawSend s party) := by
  unfold withdrawSend
  split
  · exact .rests (.inl rfl) rfl
  · next session hs =>
    have houtlets : (x.setSession s { session with tasks := session.tasks.withdraw party }).outlet =
        Function.update x.outlet s
          { x.outlet s with tasks := (x.outlet s).tasks.withdraw party } := by
      rw [outlet_setSession hs, outlet_eq hs]
      rfl
    exact .withdraws rfl houtlets

theorem conveys_relayTakes? (hs : x.sessions[s]? = some session) (hrelay : session.relay = .idle)
    (h : x.relayTakes? s session = some x') : Conveys j x (.relay s) j x' := by
  have ho := outlet_eq hs
  have hidle : (x.outlet s).relay = .idle := by rwa [ho]
  rcases relayTakes?_cases h with ⟨task, tasks, htake, hopen, rfl⟩ | ⟨tasks, -, htasks, rfl⟩
  · exact .takes hidle (by rwa [ho]) hopen rfl (outlet_setSession (x := x.addRoute task.id s) hs _)
  · exact .ends hidle (by rwa [ho]) rfl (outlet_setSession hs _)

theorem conveys_relayStep? (h : x.relayStep? s = some x') :
    Conveys j x (.relay s) (j.note x (.relay s) x') x' := by
  obtain ⟨session, hs, ⟨hrelay, htakes⟩ | ⟨task, hrelay, hputs⟩⟩ := relayStep?_cases h
  · have hbefore : x.relay? s = some .idle := by simp [relay?, hs, hrelay]
    simp only [Journal.note, Journal.noteRelay, hbefore]
    exact conveys_relayTakes? hs hrelay htakes
  · have ho := outlet_eq hs
    have hholding : (x.outlet s).relay = .holding task := by rwa [ho]
    have hbefore := relay?_eq_holding.mpr hholding
    obtain ⟨sending, queue, hattempt, hcases⟩ := relayPuts?_cases hputs
    rcases hcases with ⟨rfl, rfl⟩ | ⟨rfl, rfl⟩ | ⟨rfl, rfl⟩
    · have hafter := Audited.relay?_setSession (x := { x with queue }) hs
        { session with relay := .idle }
      simp only [Journal.note, Journal.noteRelay, hbefore, hafter]
      refine .puts hholding hattempt ?_
      rw [ho]
      exact outlet_setSession (x := { x with queue }) hs _
    · have hafter : ({ x with queue } : Exchange).relay? s = some (.holding task) := hbefore
      simp only [Journal.note, Journal.noteRelay, hbefore, hafter]
      exact .waits hholding hattempt rfl
    · have hafter := Audited.relay?_endRelay
        (x := ({ x with queue } : Exchange).removeRoute task.id) hs session
      simp only [Journal.note, Journal.noteRelay, hbefore, hafter]
      refine .drops hholding hattempt ?_
      rw [ho]
      exact outlet_setSession (x := ({ x with queue } : Exchange).removeRoute task.id) hs _

theorem closeQueueIfClosed_queue_cases (x : Exchange) :
    x.closeQueueIfClosed.queue = x.queue ∨ x.closeQueueIfClosed.queue = x.queue.close := by
  rcases x.closeQueueIfClosed_cases with ⟨-, hqueue⟩ | ⟨-, hqueue⟩
  · exact .inr hqueue
  · exact .inl hqueue

theorem conveys_fetchStep? {party : Party} {now : Nat} {reply : Option FetchReply}
    (h : x.fetchStep? party now = some (reply, x')) :
    Conveys j x (.fetch party now) (j.note x (.fetch party now) x') x' := by
  obtain ⟨f, -, -, hfetches⟩ := fetchStep?_cases h
  simp only [Journal.note, h]
  cases hfetches with
  | takes _ hqueue htake =>
      refine .fetches ?_ htake rfl
      rcases hqueue with hqueue | hqueue
      · exact .inl hqueue
      · rw [hqueue]
        exact x.closeQueueIfClosed_queue_cases
  | @leaves queue _ _ hqueue =>
      have hsame : j.noteFetch party (some x.emptyReply) = j := by
        unfold emptyReply
        split
        · rfl
        · rfl
      rw [hsame]
      refine .rests ?_ rfl
      rcases hqueue with rfl | ⟨rfl, -⟩
      · exact x.closeQueueIfClosed_queue_cases
      · exact .inl rfl
  | polls => exact .rests (.inl rfl) rfl
  | requeues => exact .rests (.inl rfl) rfl

theorem conveys_close (x : Exchange) : Conveys j x .close j x.close := by
  unfold close
  simp only
  split
  · exact .rests (.inr rfl) rfl
  · exact .rests (.inl rfl) rfl

/-- A step that replaces a session's channel for results, or its sending side, moves no task. -/
theorem conveys_setSession (hs : x.sessions[s]? = some session) {session' : Session}
    (hsame : session'.outlet = session.outlet) : Conveys j x d j (x.setSession s session') :=
  .rests (.inl rfl) (outlet_setSession_same hs hsame)

theorem conveys_submit (x : Exchange) (party : Party) (r : TaskResult) :
    Conveys j x (.submit party r) j (x.submit party r).2 := by
  cases hsubmit : x.submit party r with
  | mk answer next =>
    rcases submit_cases hsubmit with ⟨-, -, rfl⟩ | ⟨s, -, ⟨-, -, rfl⟩ |
      ⟨session, sending, results, hs, -, -, rfl⟩⟩
    · exact .rests (.inl rfl) rfl
    · exact .rests (.inl rfl) rfl
    · have hroutes : (x.removeRoute r.id).outlet = x.outlet := rfl
      have hsame : ((x.removeRoute r.id).setSession s { session with results }).outlet =
          (x.removeRoute r.id).outlet := outlet_setSession_same (x := x.removeRoute r.id) hs rfl
      exact .rests (.inl rfl) (hsame.trans hroutes)

theorem conveys_receive (x : Exchange) (s : SessionId) :
    Conveys j x (.receive s) j (x.receive s).2 := by
  cases hreceive : x.receive s with
  | mk received next =>
    rcases receive_cases hreceive with ⟨-, rfl⟩ | ⟨session, r, results, hs, -, -, rfl⟩
    · exact .rests (.inl rfl) rfl
    · exact conveys_setSession hs rfl

theorem conveys_dropTasks (x : Exchange) (s : SessionId) :
    Conveys j x (.dropTasks s) j (x.dropTasks s) := by
  unfold dropTasks
  split
  · exact .rests (.inl rfl) rfl
  · next session hs => exact conveys_setSession hs rfl

theorem conveys_dropResults (x : Exchange) (s : SessionId) :
    Conveys j x (.dropResults s) j (x.dropResults s) := by
  unfold dropResults
  split
  · exact .rests (.inl rfl) rfl
  · next session hs => exact conveys_setSession hs rfl

theorem conveys_deal? (h : x.deal? d = some x') : Conveys j x d (j.note x d x') x' := by
  cases d with
  | openSession =>
      rw [← Option.some.inj h]
      exact .rests (.inl rfl) (outlet_openSession x)
  | send s party task =>
      rw [← Option.some.inj h]
      exact conveys_send s party task
  | resumeSend s party =>
      obtain ⟨⟨sending, next⟩, hsend, rfl⟩ := Option.map_eq_some_iff.mp h
      exact conveys_resumeSend? hsend
  | withdrawSend s party =>
      rw [← Option.some.inj h]
      exact conveys_withdrawSend x s party
  | dropTasks s =>
      rw [← Option.some.inj h]
      exact conveys_dropTasks x s
  | relay s => exact conveys_relayStep? h
  | startFetch party =>
      rw [← Option.some.inj h]
      exact .rests (.inl rfl) rfl
  | fetch party now =>
      obtain ⟨⟨reply, next⟩, hfetch, rfl⟩ := Option.map_eq_some_iff.mp h
      exact conveys_fetchStep? hfetch
  | leaveLine party =>
      rw [← Option.some.inj h]
      exact .rests (.inl rfl) rfl
  | submit party r =>
      rw [← Option.some.inj h]
      exact conveys_submit x party r
  | resumeSubmit s party id =>
      obtain ⟨⟨answer, next⟩, hresume, rfl⟩ := Option.map_eq_some_iff.mp h
      obtain ⟨session, sending, results, hs, -, -, rfl⟩ := resumeSubmit?_cases hresume
      exact conveys_setSession hs rfl
  | receive s =>
      rw [← Option.some.inj h]
      exact conveys_receive x s
  | dropResults s =>
      rw [← Option.some.inj h]
      exact conveys_dropResults x s
  | close =>
      rw [← Option.some.inj h]
      exact conveys_close x

end Exchange

namespace Audited

/-! The notes of a deal leave the exchange as the deal made it. -/

theorem noteSent_exchange (a : Audited) (s : SessionId) (task? : Option Task) (sending : Sending) :
    (a.noteSent s task? sending).exchange = a.exchange := by
  cases sending <;> rfl

theorem noteRelay_exchange (a : Audited) (s : SessionId) (old new : Option Relay)
    (routed : TaskId → Bool) : (a.noteRelay s old new routed).exchange = a.exchange := by
  unfold noteRelay
  split
  · rfl
  · rfl
  · split
    · rfl
    · rfl
  · rfl

theorem noteFetched_exchange (a : Audited) (reply : Option FetchReply) :
    (a.noteFetched reply).exchange = a.exchange := by
  unfold noteFetched
  split
  · rfl
  · rfl

theorem noteSubmitted_exchange (a : Audited) (id : TaskId) (routed : Bool) :
    (a.noteSubmitted id routed).exchange = a.exchange := by
  unfold noteSubmitted
  split
  · rfl
  · rfl

theorem noteReceived_exchange (a : Audited) (s : SessionId) (received : Received) :
    (a.noteReceived s received).exchange = a.exchange := by
  unfold noteReceived
  split
  · rfl
  · rfl

theorem exchange_of_deal? {a b : Audited} {d : Deal} (h : a.deal? d = some b) :
    a.exchange.deal? d = some b.exchange := by
  cases d with
  | openSession | withdrawSend | dropTasks | startFetch | leaveLine | dropResults | close =>
      rw [← Option.some.inj h]
      rfl
  | send s party task =>
      rw [← Option.some.inj h, noteSent_exchange]
      rfl
  | resumeSend s party =>
      obtain ⟨⟨sending, x⟩, hsend, rfl⟩ := Option.map_eq_some_iff.mp h
      rw [noteSent_exchange]
      simp [Exchange.deal?, hsend]
  | relay s =>
      obtain ⟨x, hstep, rfl⟩ := Option.map_eq_some_iff.mp h
      rw [noteRelay_exchange]
      exact hstep
  | fetch party now =>
      obtain ⟨⟨reply, x⟩, hfetch, rfl⟩ := Option.map_eq_some_iff.mp h
      rw [noteFetched_exchange]
      simp [Exchange.deal?, hfetch]
  | submit party r =>
      rw [← Option.some.inj h, noteSubmitted_exchange]
      rfl
  | resumeSubmit s party id =>
      obtain ⟨⟨answer, x⟩, hresume, rfl⟩ := Option.map_eq_some_iff.mp h
      simp [Exchange.deal?, hresume]
  | receive s =>
      rw [← Option.some.inj h, noteReceived_exchange]
      rfl

end Audited

namespace Journaled

open Exchange

variable {j j' : Journaled} {d : Deal}

theorem deal?_eq (h : j.deal? d = some j') :
    j.toAudited.deal? d = some j'.toAudited ∧
      j'.journal = j.journal.note j.exchange d j'.exchange := by
  obtain ⟨a, ha, rfl⟩ := Option.map_eq_some_iff.mp h
  exact ⟨ha, rfl⟩

theorem exchange_of_deal? (h : j.deal? d = some j') :
    j.exchange.deal? d = some j'.exchange :=
  Audited.exchange_of_deal? (deal?_eq h).1

/-- Every deal is one of the steps that `Conveys` lists. -/
theorem conveys_of_deal? (h : j.deal? d = some j') :
    Conveys j.journal j.exchange d j'.journal j'.exchange := by
  rw [(deal?_eq h).2]
  exact conveys_deal? (exchange_of_deal? h)

end Journaled

end TaskFarm
