import TaskFarm.Exchange.Fetching
import TaskFarm.Exchange.Sending
import TaskFarm.Exchange.Submitting
import TaskFarm.Proofs.Channel

/-!
# What a step at an exchange can do

One statement for each kind of step lists all of its outcomes with what holds for them.  Proofs
about exchanges use these and do not open the steps.
-/

namespace TaskFarm.Exchange

variable {x x' : Exchange} {s s' : SessionId} {session : Session}

/-! ## Sessions -/

theorem setSession_self (hs : x.sessions[s]? = some session) (session' : Session) :
    (x.setSession s session').sessions[s]? = some session' := by
  obtain ⟨hlt, -⟩ := Array.getElem?_eq_some_iff.mp hs
  simp [setSession, hlt]

theorem setSession_ne (session' : Session) (hne : s ≠ s') :
    (x.setSession s session').sessions[s']? = x.sessions[s']? := by
  simp [setSession, hne]

@[simp] theorem setSession_setSession (session₁ session₂ : Session) :
    (x.setSession s session₁).setSession s session₂ = x.setSession s session₂ := by
  simp [setSession]

@[simp] theorem size_setSession (session' : Session) :
    (x.setSession s session').sessions.size = x.sessions.size := by
  simp [setSession]

/-- The sessions of an exchange in which one is replaced. -/
theorem setSession_cases {session' found : Session} (hs : x.sessions[s]? = some session)
    (hfound : (x.setSession s session').sessions[s']? = some found) :
    (s' = s ∧ found = session') ∨ (s' ≠ s ∧ x.sessions[s']? = some found) := by
  by_cases he : s = s'
  · subst he
    rw [setSession_self hs] at hfound
    exact .inl ⟨rfl, (Option.some.inj hfound).symm⟩
  · rw [setSession_ne session' he] at hfound
    exact .inr ⟨Ne.symm he, hfound⟩

theorem openSession_cases {found : Session}
    (hfound : x.openSession.2.sessions[s]? = some found) :
    (s = x.sessions.size ∧ found = .opened) ∨ x.sessions[s]? = some found := by
  simp only [openSession, Array.getElem?_push] at hfound
  split at hfound
  · next he => exact .inl ⟨he, (Option.some.inj hfound).symm⟩
  · exact .inr hfound

/-! ## Sending -/

theorem send_cases {party : Party} {task : Task} {sending : Sending}
    (h : x.send s party task = (sending, x')) :
    (sending = .refused ∧ x' = x ∧
      ∀ session, x.sessions[s]? = some session → session.senderGone = true) ∨
    ∃ session tasks, x.sessions[s]? = some session ∧ session.senderGone = false ∧
      session.tasks.offer party task = (sending, tasks) ∧
      x' = x.setSession s { session with tasks } := by
  unfold send at h
  split at h
  · next hs =>
    cases h
    exact .inl ⟨rfl, rfl, by simp [hs]⟩
  · next session hs =>
    split at h
    · next hgone =>
      cases h
      exact .inl ⟨rfl, rfl, by simp [hs, hgone]⟩
    · next hgone =>
      cases h
      exact .inr ⟨session, _, hs, Bool.eq_false_iff.mpr hgone, rfl, rfl⟩

theorem resumeSend?_cases {party : Party} {sending : Sending}
    (h : x.resumeSend? s party = some (sending, x')) :
    ∃ session tasks, x.sessions[s]? = some session ∧
      session.tasks.resume? party = some (sending, tasks) ∧
      x' = x.setSession s { session with tasks } := by
  simp only [resumeSend?, Option.bind_eq_some_iff, Option.map_eq_some_iff] at h
  obtain ⟨session, hs, ⟨sending', tasks⟩, hresume, he⟩ := h
  cases he
  exact ⟨session, tasks, hs, hresume, rfl⟩

/-! ## Relays -/

theorem relayStep?_cases (h : x.relayStep? s = some x') :
    ∃ session, x.sessions[s]? = some session ∧
      ((session.relay = .idle ∧ x.relayTakes? s session = some x') ∨
        ∃ task, session.relay = .holding task ∧ x.relayPuts? s session task = some x') := by
  obtain ⟨session, hs, hstep⟩ := Option.bind_eq_some_iff.mp h
  refine ⟨session, hs, ?_⟩
  cases hrelay : session.relay with
  | idle => exact .inl ⟨rfl, by simpa [hrelay] using hstep⟩
  | holding task => exact .inr ⟨task, rfl, by simpa [hrelay] using hstep⟩
  | ended => simp [hrelay] at hstep

/-- A relay ends with the channel as it is, or with the task that it took from there last. -/
theorem relayTakes?_cases (h : x.relayTakes? s session = some x') :
    (∃ task tasks, session.tasks.take? = some (task, tasks) ∧ x.closed = false ∧
      x' = (x.addRoute task.id s).setSession s { session with tasks, relay := .holding task }) ∨
    ∃ tasks, (x.closed = true ∨ session.senderGone = true) ∧
      (tasks = session.tasks ∨ ∃ task, session.tasks.take? = some (task, tasks)) ∧
      x' = x.endRelay s { session with tasks } := by
  unfold relayTakes? at h
  split at h
  · next task tasks htake =>
    split at h
    · next hclosed =>
      cases h
      exact .inr ⟨tasks, .inl hclosed, .inr ⟨task, htake⟩, rfl⟩
    · next hclosed =>
      cases h
      exact .inl ⟨task, tasks, htake, Bool.eq_false_iff.mpr hclosed, rfl⟩
  · split at h
    · next hgone =>
      cases h
      simp only [Bool.and_eq_true] at hgone
      exact .inr ⟨session.tasks, .inr hgone.1.1, .inl rfl, rfl⟩
    · cases h

theorem relayPuts?_cases {task : Task} (h : x.relayPuts? s session task = some x') :
    ∃ sending queue, x.queue.attempt? s task = some (sending, queue) ∧
      ((sending = .accepted ∧ x' = { x with queue }.setSession s { session with relay := .idle }) ∨
        (sending = .waiting ∧ x' = { x with queue }) ∨
        (sending = .refused ∧ x' = ({ x with queue }.removeRoute task.id).endRelay s session)) := by
  obtain ⟨⟨sending, queue⟩, hattempt, he⟩ := Option.map_eq_some_iff.mp h
  refine ⟨sending, queue, hattempt, ?_⟩
  cases sending with
  | accepted => exact .inl ⟨rfl, he.symm⟩
  | waiting => exact .inr (.inl ⟨rfl, he.symm⟩)
  | refused => exact .inr (.inr ⟨rfl, he.symm⟩)

/-! ## Fetching -/

/-- A party is at the queue: it is first in line, or it waits there for a task. -/
def AtQueue (x : Exchange) (f : PendingFetch) : Prop :=
  x.isFirst f.party = true ∨ ∃ deadline, f.stage = .polling deadline

/-- Everything that a step of a fetch can be. -/
inductive FetchesAs (x : Exchange) (f : PendingFetch) (now : Nat) :
    Option FetchReply → Exchange → Prop
  | takes {queue queue' : Channel SessionId Task} {task : Task} (hturn : x.AtQueue f)
      (hqueue : queue = x.queue ∨ queue = x.closeQueueIfClosed.queue)
      (htake : queue.take? = some (task, queue')) :
      FetchesAs x f now (some (.task task)) ({ x with queue := queue' }.leaveLine f.party)
  /-- A fetch that is out of time may leave a closed exchange with its queue still open. -/
  | leaves {queue : Channel SessionId Task} (hturn : x.AtQueue f)
      (hempty : x.queue.buffer = [])
      (hqueue : queue = x.closeQueueIfClosed.queue ∨
        queue = x.queue ∧ ∃ deadline ≤ now, f.stage = .polling deadline) :
      FetchesAs x f now (some x.emptyReply) ({ x with queue }.leaveLine f.party)
  | polls {timeout : Nat} (hfirst : x.isFirst f.party = true) (hopen : x.closed = false)
      (hempty : x.queue.buffer = []) (htimeout : 0 < timeout)
      (hsettings : x.settings.fetchTimeout = some timeout) (hstage : f.stage = .inLine) :
      FetchesAs x f now none (x.setStage f.party (.polling (now + timeout)))
  | requeues (hclosed : x.closed = true) (hstage : f.stage ≠ .closing) :
      FetchesAs x f now none (x.requeue f.party)

theorem closeQueueIfClosed_queue (x : Exchange) :
    x.closeQueueIfClosed = { x with queue := x.closeQueueIfClosed.queue } := by
  unfold closeQueueIfClosed
  split
  · rfl
  · rfl

theorem closeQueueIfClosed_cases (x : Exchange) :
    (x.closed = true ∧ x.closeQueueIfClosed.queue = x.queue.close) ∨
      (x.closed = false ∧ x.closeQueueIfClosed.queue = x.queue) := by
  unfold closeQueueIfClosed
  split
  · next hclosed => exact .inl ⟨hclosed, rfl⟩
  · next hclosed => exact .inr ⟨Bool.eq_false_iff.mpr hclosed, rfl⟩

/-- The queue of an exchange is closed only after the exchange, and keeps what is in it. -/
theorem closeQueueIfClosed_eq (x : Exchange) :
    ∃ queue, x.closeQueueIfClosed = { x with queue } ∧ queue.buffer = x.queue.buffer ∧
      queue.pending = x.queue.pending ∧ (x.closed = false → queue.closed = x.queue.closed) := by
  refine ⟨_, x.closeQueueIfClosed_queue, ?_⟩
  rcases x.closeQueueIfClosed_cases with ⟨hclosed, hqueue⟩ | ⟨-, hqueue⟩
  · rw [hqueue]
    exact ⟨rfl, rfl, fun hopen => absurd hclosed (by simp [hopen])⟩
  · rw [hqueue]
    exact ⟨rfl, rfl, fun _ => rfl⟩

theorem takeTask?_some {party : Party} {reply : FetchReply}
    (h : x.takeTask? party = some (reply, x')) :
    ∃ task queue, reply = .task task ∧ x.queue.take? = some (task, queue) ∧
      x' = { x with queue }.leaveLine party := by
  obtain ⟨⟨task, queue⟩, htake, he⟩ := Option.map_eq_some_iff.mp h
  cases he
  exact ⟨task, queue, rfl, htake, rfl⟩

theorem takeTask?_eq_none {party : Party} : x.takeTask? party = none ↔ x.queue.buffer = [] := by
  unfold takeTask? Channel.take?
  cases x.queue.buffer with
  | nil => simp
  | cons task rest => simp

theorem takes_closeQueueIfClosed {f : PendingFetch} (hfirst : x.isFirst f.party = true)
    {now : Nat} {reply : FetchReply}
    (h : x.closeQueueIfClosed.takeTask? f.party = some (reply, x')) :
    FetchesAs x f now (some reply) x' := by
  obtain ⟨task, queue, rfl, htake, rfl⟩ := takeTask?_some h
  rw [closeQueueIfClosed_queue]
  exact .takes (.inl hfirst) (.inr rfl) htake

theorem leaves_closeQueueIfClosed {f : PendingFetch} (hfirst : x.isFirst f.party = true)
    {now : Nat} (h : x.closeQueueIfClosed.takeTask? f.party = none) :
    FetchesAs x f now (some (x.closeQueueIfClosed.leaveEmpty f.party).1)
      (x.closeQueueIfClosed.leaveEmpty f.party).2 := by
  obtain ⟨queue, heq, hbuffer, -, -⟩ := x.closeQueueIfClosed_eq
  have hempty : x.queue.buffer = [] := by
    have hnone := takeTask?_eq_none.mp h
    rwa [heq, hbuffer] at hnone
  rw [closeQueueIfClosed_queue]
  exact .leaves (.inl hfirst) hempty (.inl rfl)

theorem fetchesAs_beginTurn {f : PendingFetch} (hfirst : x.isFirst f.party = true)
    (hstage : f.stage = .inLine) (now : Nat) :
    FetchesAs x f now (x.beginTurn f.party now).1 (x.beginTurn f.party now).2 := by
  unfold beginTurn
  simp only
  split
  · next step htake => exact takes_closeQueueIfClosed hfirst htake
  · next htake =>
    split
    · exact leaves_closeQueueIfClosed hfirst htake
    · next timeout hsettings =>
      split
      · exact leaves_closeQueueIfClosed hfirst htake
      · next hstay =>
        simp only [Bool.or_eq_true, beq_iff_eq, not_or] at hstay
        obtain ⟨hstays, htimeout⟩ := hstay
        have hopen : x.closed = false := by
          rw [closeQueueIfClosed_queue] at hstays
          exact Bool.eq_false_iff.mpr hstays
        have hsame : x.closeQueueIfClosed = x := by simp [closeQueueIfClosed, hopen]
        rw [hsame] at htake hsettings ⊢
        exact .polls hfirst hopen (takeTask?_eq_none.mp htake) (Nat.pos_of_ne_zero htimeout)
          hsettings hstage

theorem fetchStep?_cases {party : Party} {now : Nat} {reply : Option FetchReply}
    (h : x.fetchStep? party now = some (reply, x')) :
    ∃ f, x.fetchOf? party = some f ∧ f.party = party ∧ FetchesAs x f now reply x' := by
  obtain ⟨f, hf, hstep⟩ := Option.bind_eq_some_iff.mp h
  have hparty : f.party = party := by simpa using List.find?_some hf
  subst hparty
  refine ⟨f, hf, rfl, ?_⟩
  cases hstage : f.stage with
  | inLine =>
      simp only [hstage] at hstep
      split at hstep
      · next hfirst =>
        have hturn := fetchesAs_beginTurn hfirst hstage now
        rwa [Option.some.inj hstep] at hturn
      · split at hstep
        · next hclosed =>
          cases hstep
          exact .requeues hclosed (by simp [hstage])
        · cases hstep
  | polling deadline =>
      have hturn : x.AtQueue f := .inr ⟨deadline, hstage⟩
      simp only [hstage] at hstep
      split at hstep
      · next step htake =>
        cases hstep
        obtain ⟨task, queue, hreply, htake, hx⟩ := takeTask?_some htake
        simp only [hreply, hx]
        exact .takes hturn (.inl rfl) htake
      · next htake =>
        split at hstep
        · next hover =>
          cases hstep
          exact .leaves hturn (takeTask?_eq_none.mp htake) (.inr ⟨rfl, deadline, hover, hstage⟩)
        · split at hstep
          · next hclosed =>
            cases hstep
            exact .requeues hclosed (by simp [hstage])
          · cases hstep
  | closing =>
      simp only [hstage] at hstep
      split at hstep
      · next hfirst =>
        cases hstep
        cases htake : x.closeQueueIfClosed.takeTask? f.party with
        | none => exact leaves_closeQueueIfClosed hfirst htake
        | some step => exact takes_closeQueueIfClosed hfirst htake
      · cases hstep

/-- A step of a fetch concerns the queue and the line, and takes at most one task. -/
structure Fetches (x : Exchange) (reply : Option FetchReply) (x' : Exchange) : Prop where
  routes_eq : x'.routes = x.routes
  sessions_eq : x'.sessions = x.sessions
  closed_eq : x'.closed = x.closed
  /-- The queue is closed only after the exchange. -/
  queue_open : x.closed = false → x'.queue.closed = x.queue.closed
  pending_eq : x'.queue.pending = x.queue.pending
  took : (∃ task, reply = some (.task task) ∧ x.queue.buffer = task :: x'.queue.buffer) ∨
    ((∀ task, reply ≠ some (.task task)) ∧ x'.queue.buffer = x.queue.buffer)

theorem emptyReply_ne_task (x : Exchange) (task : Task) : x.emptyReply ≠ .task task := by
  unfold emptyReply
  split
  · nofun
  · nofun

theorem FetchesAs.fetches {f : PendingFetch} {now : Nat} {reply : Option FetchReply}
    (h : FetchesAs x f now reply x') : Fetches x reply x' := by
  obtain ⟨closing, heq, hbuffer, hpending, hclosed⟩ := x.closeQueueIfClosed_eq
  cases h with
  | @takes queue queue' task hturn hqueue htake =>
      obtain ⟨htook, hkept, hsame⟩ := Channel.take?_some htake
      rcases hqueue with rfl | rfl
      · exact ⟨rfl, rfl, rfl, fun _ => hsame, hkept, .inl ⟨task, rfl, htook⟩⟩
      · rw [heq] at htook hkept hsame
        exact ⟨rfl, rfl, rfl, fun hopen => hsame.trans (hclosed hopen), hkept.trans hpending,
          .inl ⟨task, rfl, hbuffer.symm.trans htook⟩⟩
  | @leaves queue hturn hempty hqueue =>
      have hnone : ∀ task, some x.emptyReply ≠ some (.task task) := fun task he =>
        x.emptyReply_ne_task task (Option.some.inj he)
      rcases hqueue with rfl | ⟨rfl, -⟩
      · rw [heq]
        exact ⟨rfl, rfl, rfl, hclosed, hpending, .inr ⟨hnone, hbuffer⟩⟩
      · exact ⟨rfl, rfl, rfl, fun _ => rfl, rfl, .inr ⟨hnone, rfl⟩⟩
  | polls => exact ⟨rfl, rfl, rfl, fun _ => rfl, rfl, .inr ⟨nofun, rfl⟩⟩
  | requeues => exact ⟨rfl, rfl, rfl, fun _ => rfl, rfl, .inr ⟨nofun, rfl⟩⟩

theorem fetches_of_fetchStep? {party : Party} {now : Nat} {reply : Option FetchReply}
    (h : x.fetchStep? party now = some (reply, x')) : Fetches x reply x' := by
  obtain ⟨f, -, -, hfetches⟩ := fetchStep?_cases h
  exact hfetches.fetches

/-! ## Submitting and receiving -/

theorem route?_eq_some {id : TaskId} (h : x.route? id = some s) : (id, s) ∈ x.routes := by
  obtain ⟨⟨id', s'⟩, hfind, rfl⟩ := Option.map_eq_some_iff.mp h
  have hid : id' = id := by simpa using List.find?_some hfind
  exact hid ▸ List.mem_of_find?_eq_some hfind

theorem route?_eq_none {id : TaskId} : x.route? id = none ↔ id ∉ x.routes.map Prod.fst := by
  simp only [route?, Option.map_eq_none_iff, List.find?_eq_none, beq_iff_eq]
  constructor
  · intro h hid
    obtain ⟨route, hroute, he⟩ := List.mem_map.mp hid
    exact h route hroute he
  · exact fun h route hroute he => h (he ▸ List.mem_map_of_mem hroute)

theorem removeRoute_eq_self {id : TaskId} (h : x.route? id = none) : x.removeRoute id = x := by
  have hroutes : (x.routes.filter fun route => !(route.1 == id)) = x.routes := by
    refine List.filter_eq_self.mpr fun route hroute => ?_
    have hne : route.1 ≠ id := fun he =>
      route?_eq_none.mp h (he ▸ List.mem_map_of_mem hroute)
    simp [hne]
  simp [removeRoute, hroutes]

theorem submit_cases {party : Party} {r : TaskResult} {answer : Submission}
    (h : x.submit party r = (answer, x')) :
    (x.route? r.id = none ∧ answer = .failed (.unknownTask r.id) ∧ x' = x) ∨
    ∃ s, x.route? r.id = some s ∧
      ((x.sessions[s]? = none ∧ answer = .failed (.sessionClosed r.id) ∧
          x' = x.removeRoute r.id) ∨
        ∃ session sending results, x.sessions[s]? = some session ∧
          session.results.offer party r = (sending, results) ∧
          answer = Submission.of r.id s sending ∧
          x' = (x.removeRoute r.id).setSession s { session with results }) := by
  unfold submit at h
  split at h
  · next hroute =>
    cases h
    exact .inl ⟨hroute, rfl, rfl⟩
  · next s hroute =>
    refine .inr ⟨s, hroute, ?_⟩
    simp only at h
    split at h
    · next hs =>
      cases h
      exact .inl ⟨hs, rfl, rfl⟩
    · next session hs =>
      cases h
      exact .inr ⟨session, _, _, hs, rfl, rfl, rfl⟩

theorem resumeSubmit?_cases {party : Party} {id : TaskId} {answer : Submission}
    (h : x.resumeSubmit? s party id = some (answer, x')) :
    ∃ session sending results, x.sessions[s]? = some session ∧
      session.results.resume? party = some (sending, results) ∧
      answer = Submission.of id s sending ∧
      x' = x.setSession s { session with results } := by
  simp only [resumeSubmit?, Option.bind_eq_some_iff, Option.map_eq_some_iff] at h
  obtain ⟨session, hs, ⟨sending, results⟩, hresume, he⟩ := h
  cases he
  exact ⟨session, sending, results, hs, hresume, rfl, rfl⟩

theorem receive_cases {received : Received} (h : x.receive s = (received, x')) :
    ((∀ r, received ≠ .result r) ∧ x' = x) ∨
    ∃ session r results, x.sessions[s]? = some session ∧ received = .result r ∧
      session.results.take? = some (r, results) ∧
      x' = x.setSession s { session with results } := by
  unfold receive at h
  split at h
  · cases h
    exact .inl ⟨nofun, rfl⟩
  · next session hs =>
    split at h
    · next r results htake =>
      cases h
      exact .inr ⟨session, r, results, hs, rfl, htake, rfl⟩
    · split at h
      · cases h
        exact .inl ⟨nofun, rfl⟩
      · cases h
        exact .inl ⟨nofun, rfl⟩

/-- A receiver finds nothing left only in a session that is closed, or to which nothing can come. -/
theorem receive_disconnected (h : x.receive s = (.disconnected, x')) :
    x.sessions[s]? = none ∨ ∃ session, x.sessions[s]? = some session ∧
      (session.results.closed = true ∨ x.canReceive s session = false) := by
  unfold receive at h
  split at h
  · next hs => exact .inl hs
  · next session hs =>
    refine .inr ⟨session, hs, ?_⟩
    split at h
    · cases h
    · split at h
      · next hend => simpa using hend
      · cases h

end TaskFarm.Exchange
