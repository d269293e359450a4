import TaskFarm.Proofs.Exchange.Steps
import TaskFarm.Task.Compute

/-!
# What an exchange carries

An exchange invents nothing: every task in it was sent, and every result in it was submitted.  And
as long as nobody closes it, its own steps close nothing: a session that can be used stays so until
one of its sides goes away.
-/

namespace TaskFarm

/-- The tasks in a session are genuine, and the results in it are those of genuine tasks. -/
structure Session.Carries (genuine : Task → Prop) (session : Session) : Prop where
  tasks : ∀ task ∈ session.tasks.contents, genuine task
  holding : ∀ task, session.relay = .holding task → genuine task
  results : ∀ r ∈ session.results.contents, ∃ task, genuine task ∧ r = task.result

/-- Tasks and results can go through a session. -/
structure Session.Live (session : Session) : Prop where
  sender : session.senderGone = false
  relay : session.hasEnded = false
  tasks : session.tasks.closed = false
  results : session.results.closed = false

namespace Exchange

/-- The tasks in an exchange are genuine, and the results in it are those of genuine tasks. -/
structure Carries (genuine : Task → Prop) (x : Exchange) : Prop where
  queue : ∀ task ∈ x.queue.contents, genuine task
  sessions : ∀ (s : SessionId) (session : Session), x.sessions[s]? = some session →
    session.Carries genuine

/-- Neither the exchange nor its queue is closed. -/
structure Open (x : Exchange) : Prop where
  exchange : x.closed = false
  queue : x.queue.closed = false

/-- A step that leaves an open exchange open and its sessions live. -/
structure Keeps (x x' : Exchange) : Prop where
  stays : x.Open → x'.Open
  size_le : x.sessions.size ≤ x'.sessions.size
  live : x.Open → ∀ (s : SessionId) (session : Session), x.sessions[s]? = some session →
    session.Live → ∃ session', x'.sessions[s]? = some session' ∧ session'.Live

/-- A step that makes no difference to the sessions but one. -/
structure Spares (s : SessionId) (x x' : Exchange) : Prop where
  stays : x.Open → x'.Open
  size_eq : x'.sessions.size = x.sessions.size
  others : ∀ s', s' ≠ s → x'.sessions[s']? = x.sessions[s']?

end Exchange

theorem Session.Carries.mono {genuine genuine' : Task → Prop} {session : Session}
    (h : session.Carries genuine) (hgenuine : ∀ task, genuine task → genuine' task) :
    session.Carries genuine' where
  tasks task htask := hgenuine task (h.tasks task htask)
  holding task hrelay := hgenuine task (h.holding task hrelay)
  results r hr := by
    obtain ⟨task, htask, hresult⟩ := h.results r hr
    exact ⟨task, hgenuine task htask, hresult⟩

theorem Session.carries_opened (genuine : Task → Prop) : Session.opened.Carries genuine :=
  ⟨nofun, nofun, nofun⟩

theorem Session.live_opened : Session.opened.Live :=
  ⟨rfl, rfl, rfl, rfl⟩

namespace Exchange

variable {genuine genuine' : Task → Prop} {x x' : Exchange} {s : SessionId} {session : Session}
  {party : Party}

theorem Carries.mono (h : x.Carries genuine) (hgenuine : ∀ task, genuine task → genuine' task) :
    x.Carries genuine' where
  queue task htask := hgenuine task (h.queue task htask)
  sessions s session hs := (h.sessions s session hs).mono hgenuine

theorem carries_opened (settings : QueueSettings) (genuine : Task → Prop) :
    (opened settings).Carries genuine :=
  ⟨nofun, fun s session hs => by simp [opened] at hs⟩

/-- A step that leaves the sessions alone. -/
theorem Keeps.of_sessions_eq (hstays : x.Open → x'.Open) (hsessions : x'.sessions = x.sessions) :
    Keeps x x' := by
  constructor
  · exact hstays
  · exact Nat.le_of_eq (congrArg Array.size hsessions.symm)
  · intro _ s session hs hlive
    rw [hsessions]
    exact ⟨session, hs, hlive⟩

theorem Keeps.refl (x : Exchange) : Keeps x x :=
  Keeps.of_sessions_eq id rfl

/-! ## Replacing a part of the exchange -/

theorem Carries.setSession (h : x.Carries genuine) (hs : x.sessions[s]? = some session)
    {session' : Session} (hsession : session'.Carries genuine) :
    (x.setSession s session').Carries genuine := by
  refine ⟨h.queue, ?_⟩
  intro s' found hfound
  rcases setSession_cases hs hfound with ⟨rfl, rfl⟩ | ⟨-, hfound⟩
  · exact hsession
  · exact h.sessions s' found hfound

theorem Keeps.setSession (hs : x.sessions[s]? = some session) {session' : Session}
    (hlive : x.Open → session.Live → session'.Live) : Keeps x (x.setSession s session') := by
  refine ⟨fun hopen => ⟨hopen.exchange, hopen.queue⟩, by simp, ?_⟩
  intro hopen s' found hfound hfoundLive
  by_cases he : s = s'
  · subst he
    obtain rfl : found = session := Option.some.inj (hfound.symm.trans hs)
    exact ⟨session', setSession_self hs session', hlive hopen hfoundLive⟩
  · exact ⟨found, by rw [setSession_ne session' he, hfound], hfoundLive⟩

theorem Carries.setQueue (h : x.Carries genuine) {queue : Channel SessionId Task}
    (hqueue : ∀ task ∈ queue.contents, genuine task) :
    ({ x with queue } : Exchange).Carries genuine :=
  ⟨hqueue, h.sessions⟩

theorem Keeps.setQueue {queue : Channel SessionId Task} (hclosed : queue.closed = x.queue.closed) :
    Keeps x { x with queue } := by
  apply Keeps.of_sessions_eq
  · intro hopen
    exact ⟨hopen.exchange, hclosed.trans hopen.queue⟩
  · rfl

theorem Keeps.setRoutes (x : Exchange) (routes : List (TaskId × SessionId)) :
    Keeps x { x with routes } :=
  Keeps.of_sessions_eq (fun hopen => ⟨hopen.exchange, hopen.queue⟩) rfl

theorem Keeps.setLine (x : Exchange) (line : List PendingFetch) : Keeps x { x with line } :=
  Keeps.of_sessions_eq (fun hopen => ⟨hopen.exchange, hopen.queue⟩) rfl

theorem Keeps.trans {x₁ x₂ x₃ : Exchange} (h : Keeps x₁ x₂) (h' : Keeps x₂ x₃) : Keeps x₁ x₃ := by
  refine ⟨fun hopen => h'.stays (h.stays hopen), Nat.le_trans h.size_le h'.size_le, ?_⟩
  intro hopen s session hs hlive
  obtain ⟨session', hs', hlive'⟩ := h.live hopen s session hs hlive
  exact h'.live (h.stays hopen) s session' hs' hlive'

theorem Spares.refl (s : SessionId) (x : Exchange) : Spares s x x :=
  ⟨id, rfl, fun _ _ => rfl⟩

theorem Spares.setSession (x : Exchange) (s : SessionId) (session : Session) :
    Spares s x (x.setSession s session) :=
  ⟨fun hopen => ⟨hopen.exchange, hopen.queue⟩, size_setSession _,
    fun _ hne => setSession_ne _ hne.symm⟩

theorem Spares.trans {x₁ x₂ x₃ : Exchange} (h : Spares s x₁ x₂) (h' : Spares s x₂ x₃) :
    Spares s x₁ x₃ :=
  ⟨fun hopen => h'.stays (h.stays hopen), h'.size_eq.trans h.size_eq,
    fun s' hne => (h'.others s' hne).trans (h.others s' hne)⟩

/-! ## Sending -/

theorem carries_openSession (h : x.Carries genuine) : x.openSession.2.Carries genuine := by
  refine ⟨h.queue, ?_⟩
  intro s found hfound
  rcases openSession_cases hfound with ⟨-, rfl⟩ | hfound
  · exact Session.carries_opened genuine
  · exact h.sessions s found hfound

theorem keeps_openSession (x : Exchange) : Keeps x x.openSession.2 := by
  refine ⟨fun hopen => ⟨hopen.exchange, hopen.queue⟩, by simp [openSession], ?_⟩
  intro _ s session hs hlive
  obtain ⟨hlt, -⟩ := Array.getElem?_eq_some_iff.mp hs
  refine ⟨session, ?_, hlive⟩
  simpa [openSession, Array.getElem?_push, Nat.ne_of_lt hlt] using hs

/-- The channel for tasks is replaced by one that holds no others. -/
theorem setTasks (h : x.Carries genuine) (hs : x.sessions[s]? = some session)
    {tasks : Channel Party Task} (htasks : ∀ task ∈ tasks.contents, genuine task)
    (hclosed : tasks.closed = session.tasks.closed) :
    (x.setSession s { session with tasks }).Carries genuine ∧
      Keeps x (x.setSession s { session with tasks }) := by
  have hsession := h.sessions s session hs
  constructor
  · exact h.setSession hs ⟨htasks, hsession.holding, hsession.results⟩
  · apply Keeps.setSession hs
    intro _ hlive
    exact ⟨hlive.sender, hlive.relay, hclosed.trans hlive.tasks, hlive.results⟩

/-- The channel for results is replaced by one that holds no others. -/
theorem setResults (h : x.Carries genuine) (hs : x.sessions[s]? = some session)
    {results : Channel Party TaskResult}
    (hresults : ∀ r ∈ results.contents, ∃ task, genuine task ∧ r = task.result)
    (hclosed : results.closed = session.results.closed) :
    (x.setSession s { session with results }).Carries genuine ∧
      Keeps x (x.setSession s { session with results }) := by
  have hsession := h.sessions s session hs
  constructor
  · exact h.setSession hs ⟨hsession.tasks, hsession.holding, hresults⟩
  · apply Keeps.setSession hs
    intro _ hlive
    exact ⟨hlive.sender, hlive.relay, hlive.tasks, hclosed.trans hlive.results⟩

theorem send_spec (h : x.Carries genuine) {task : Task} (htask : genuine task) {sending : Sending}
    (hsend : x.send s party task = (sending, x')) : x'.Carries genuine ∧ Keeps x x' := by
  rcases send_cases hsend with ⟨-, rfl, -⟩ | ⟨session, tasks, hs, -, hoffer, rfl⟩
  · exact ⟨h, Keeps.refl x'⟩
  · refine setTasks h hs ?_ (Channel.offer_closed hoffer)
    intro t ht
    rcases List.mem_cons.mp (Channel.offer_contents_subset hoffer ht) with rfl | ht
    · exact htask
    · exact (h.sessions s session hs).tasks t ht

theorem resumeSend?_spec (h : x.Carries genuine) {sending : Sending}
    (hsend : x.resumeSend? s party = some (sending, x')) : x'.Carries genuine ∧ Keeps x x' := by
  obtain ⟨session, tasks, hs, hresume, rfl⟩ := resumeSend?_cases hsend
  exact setTasks h hs
    (fun t ht => (h.sessions s session hs).tasks t (Channel.resume?_contents_subset hresume ht))
    (Channel.resume?_closed hresume)

theorem attemptSend?_spec (h : x.Carries genuine) {task : Task} (htask : genuine task)
    {sending : Sending} (hsend : x.attemptSend? s party task = some (sending, x')) :
    x'.Carries genuine ∧ Keeps x x' := by
  unfold attemptSend? at hsend
  split at hsend
  · exact resumeSend?_spec h hsend
  · exact send_spec h htask (Option.some.inj hsend)

/-- A live session refuses no task. -/
theorem attemptSend?_ne_refused (hs : x.sessions[s]? = some session) (hlive : session.Live)
    {task : Task} {sending : Sending}
    (hsend : x.attemptSend? s party task = some (sending, x')) : sending ≠ .refused := by
  rintro rfl
  have hopen := hlive.tasks
  unfold attemptSend? at hsend
  split at hsend
  · obtain ⟨found, tasks, hfound, hresume, -⟩ := resumeSend?_cases hsend
    obtain rfl : found = session := Option.some.inj (hfound.symm.trans hs)
    rcases Channel.resume?_cases hresume with ⟨-, hclosed, -⟩ | ⟨v, hsending, -⟩
    · cases hopen.symm.trans hclosed
    · cases hsending
  · rcases send_cases (Option.some.inj hsend) with
      ⟨-, -, hgone⟩ | ⟨found, tasks, hfound, -, hoffer, -⟩
    · cases hlive.sender.symm.trans (hgone session hs)
    · obtain rfl : found = session := Option.some.inj (hfound.symm.trans hs)
      rcases Channel.offer_cases hoffer with ⟨-, hclosed, -⟩ | ⟨hsending, -⟩ | ⟨hsending, -⟩
      · cases hopen.symm.trans hclosed
      · cases hsending
      · cases hsending

theorem withdrawSend_spec (h : x.Carries genuine) (s : SessionId) (party : Party) :
    (x.withdrawSend s party).Carries genuine ∧ Keeps x (x.withdrawSend s party) := by
  unfold withdrawSend
  split
  · exact ⟨h, Keeps.refl x⟩
  · next session hs =>
    exact setTasks h hs
      (fun t ht => (h.sessions s session hs).tasks t
        (session.tasks.withdraw_contents_subset party ht))
      (session.tasks.withdraw_eq party).2.2

/-! ## Relays -/

theorem endRelay_spec (h : x.Carries genuine) (hs : x.sessions[s]? = some session)
    (hdead : x.Open → ¬session.Live) {tasks : Channel Party Task}
    (htasks : ∀ task ∈ tasks.contents, genuine task) :
    (x.endRelay s { session with tasks }).Carries genuine ∧
      Keeps x (x.endRelay s { session with tasks }) := by
  constructor
  · apply h.setSession hs
    refine ⟨?_, nofun, (h.sessions s session hs).results⟩
    intro t ht
    exact htasks t (tasks.contents_discard_subset ht)
  · apply Keeps.setSession hs
    intro hopen hlive
    exact absurd hlive (hdead hopen)

theorem relayTakes?_spec (h : x.Carries genuine) (hs : x.sessions[s]? = some session)
    (hstep : x.relayTakes? s session = some x') : x'.Carries genuine ∧ Keeps x x' := by
  have hsession := h.sessions s session hs
  rcases relayTakes?_cases hstep with ⟨task, tasks, htake, -, rfl⟩ | ⟨tasks, hend, htasks, rfl⟩
  · have hcontents := hsession.tasks
    rw [Channel.take?_contents htake] at hcontents
    have hclosed := (Channel.take?_some htake).2.2
    have hrouted : (x.addRoute task.id s).Carries genuine := ⟨h.queue, h.sessions⟩
    refine ⟨hrouted.setSession hs ⟨?_, ?_, hsession.results⟩,
      (Keeps.setRoutes x _).trans (Keeps.setSession (x := x.addRoute task.id s) hs ?_)⟩
    · exact fun t ht => hcontents t (List.mem_cons_of_mem _ ht)
    · rintro t ht
      cases ht
      exact hcontents task List.mem_cons_self
    · exact fun _ hlive => ⟨hlive.sender, rfl, hclosed.trans hlive.tasks, hlive.results⟩
  · refine endRelay_spec h hs ?_ fun t ht =>
      hsession.tasks t (Channel.contents_subset_of_taken htasks ht)
    intro hopen hlive
    rcases hend with hclosed | hgone
    · cases hopen.exchange.symm.trans hclosed
    · cases hlive.sender.symm.trans hgone

theorem relayPuts?_spec (h : x.Carries genuine) (hs : x.sessions[s]? = some session) {task : Task}
    (hrelay : session.relay = .holding task) (hstep : x.relayPuts? s session task = some x') :
    x'.Carries genuine ∧ Keeps x x' := by
  have hsession := h.sessions s session hs
  obtain ⟨sending, queue, hattempt, hcases⟩ := relayPuts?_cases hstep
  have hclosed := Channel.attempt?_closed hattempt
  have hqueue : ({ x with queue } : Exchange).Carries genuine := by
    refine h.setQueue fun t ht => ?_
    rcases List.mem_cons.mp (Channel.attempt?_contents_subset hattempt ht) with rfl | ht
    · exact hsession.holding t hrelay
    · exact h.queue t ht
  have hkeeps : Keeps x { x with queue } := Keeps.setQueue hclosed
  rcases hcases with ⟨-, rfl⟩ | ⟨-, rfl⟩ | ⟨rfl, rfl⟩
  · refine ⟨hqueue.setSession hs ⟨hsession.tasks, nofun, hsession.results⟩,
      hkeeps.trans (Keeps.setSession (x := { x with queue }) hs ?_)⟩
    exact fun _ hlive => ⟨hlive.sender, rfl, hlive.tasks, hlive.results⟩
  · exact ⟨hqueue, hkeeps⟩
  · have hroutes : ({ x with queue }.removeRoute task.id).Carries genuine :=
      ⟨hqueue.queue, hqueue.sessions⟩
    have hkeepsRoutes : Keeps x ({ x with queue }.removeRoute task.id) :=
      hkeeps.trans (Keeps.setRoutes _ _)
    have hdead : ({ x with queue }.removeRoute task.id).Open → ¬session.Live := by
      intro hopen
      cases (hopen.queue.symm.trans hclosed).trans (Channel.closed_of_attempt? hattempt)
    obtain ⟨hcarries, hends⟩ := endRelay_spec hroutes hs hdead hsession.tasks
    exact ⟨hcarries, hkeepsRoutes.trans hends⟩

theorem relayStep?_spec (h : x.Carries genuine) (hstep : x.relayStep? s = some x') :
    x'.Carries genuine ∧ Keeps x x' := by
  obtain ⟨session, hs, ⟨-, htakes⟩ | ⟨task, hrelay, hputs⟩⟩ := relayStep?_cases hstep
  · exact relayTakes?_spec h hs htakes
  · exact relayPuts?_spec h hs hrelay hputs

/-! ## Fetching -/

/-- A task that is fetched was in the exchange. -/
theorem Fetches.spec (h : x.Carries genuine) {reply : Option FetchReply}
    (hfetches : Fetches x reply x') :
    (x'.Carries genuine ∧ Keeps x x') ∧ ∀ task, reply = some (.task task) → genuine task := by
  have hqueue : ∀ t ∈ x.queue.contents, genuine t := h.queue
  have hcontents : (∃ task, reply = some (.task task) ∧
      x.queue.contents = task :: x'.queue.contents) ∨
      (∀ task, reply ≠ some (.task task)) ∧ x.queue.contents = x'.queue.contents := by
    simp only [Channel.contents, hfetches.pending_eq]
    rcases hfetches.took with ⟨task, hreply, hbuffer⟩ | ⟨hnone, hbuffer⟩
    · exact .inl ⟨task, hreply, by rw [hbuffer]; rfl⟩
    · exact .inr ⟨hnone, by rw [hbuffer]⟩
  have hkeeps : Keeps x x' := by
    apply Keeps.of_sessions_eq
    · intro hopen
      exact ⟨hfetches.closed_eq.trans hopen.exchange,
        (hfetches.queue_open hopen.exchange).trans hopen.queue⟩
    · exact hfetches.sessions_eq
  have hsessions : ∀ (s : SessionId) (session : Session), x'.sessions[s]? = some session →
      session.Carries genuine := by
    rw [hfetches.sessions_eq]
    exact h.sessions
  rcases hcontents with ⟨task, rfl, hcontents⟩ | ⟨hnone, hcontents⟩
  · rw [hcontents] at hqueue
    refine ⟨⟨⟨fun t ht => hqueue t (List.mem_cons_of_mem _ ht), hsessions⟩, hkeeps⟩, ?_⟩
    rintro t ht
    cases ht
    exact hqueue task List.mem_cons_self
  · exact ⟨⟨⟨hcontents ▸ hqueue, hsessions⟩, hkeeps⟩, fun task ht => absurd ht (hnone task)⟩

/-! ## Submitting and receiving -/

theorem submit_spec (h : x.Carries genuine) {r : TaskResult}
    (hr : ∃ task, genuine task ∧ r = task.result) {answer : Submission}
    (hsubmit : x.submit party r = (answer, x')) : x'.Carries genuine ∧ Keeps x x' := by
  rcases submit_cases hsubmit with ⟨-, -, rfl⟩ | ⟨s, -, ⟨-, -, rfl⟩ |
    ⟨session, sending, results, hs, hoffer, -, rfl⟩⟩
  · exact ⟨h, Keeps.refl x'⟩
  · exact ⟨⟨h.queue, h.sessions⟩, Keeps.setRoutes x _⟩
  · have hroutes : (x.removeRoute r.id).Carries genuine := ⟨h.queue, h.sessions⟩
    have hresults : ∀ r' ∈ results.contents, ∃ task, genuine task ∧ r' = task.result := by
      intro r' hr'
      rcases List.mem_cons.mp (Channel.offer_contents_subset hoffer hr') with rfl | hr'
      · exact hr
      · exact (h.sessions s session hs).results r' hr'
    obtain ⟨hcarries, hkeeps⟩ := setResults hroutes hs hresults (Channel.offer_closed hoffer)
    exact ⟨hcarries, (Keeps.setRoutes x _).trans hkeeps⟩

theorem resumeSubmit?_spec (h : x.Carries genuine) {id : TaskId} {answer : Submission}
    (hresume : x.resumeSubmit? s party id = some (answer, x')) :
    x'.Carries genuine ∧ Keeps x x' := by
  obtain ⟨session, sending, results, hs, hresults, -, rfl⟩ := resumeSubmit?_cases hresume
  exact setResults h hs
    (fun r hr => (h.sessions s session hs).results r (Channel.resume?_contents_subset hresults hr))
    (Channel.resume?_closed hresults)

/-- A result that is received was in the exchange. -/
theorem receive_spec (h : x.Carries genuine) {received : Received}
    (hreceive : x.receive s = (received, x')) :
    (x'.Carries genuine ∧ Keeps x x') ∧
      ∀ r, received = .result r → ∃ task, genuine task ∧ r = task.result := by
  rcases receive_cases hreceive with ⟨hnone, rfl⟩ | ⟨session, r, results, hs, rfl, htake, rfl⟩
  · exact ⟨⟨h, Keeps.refl x'⟩, fun r hr => absurd hr (hnone r)⟩
  · have hcontents := (h.sessions s session hs).results
    rw [Channel.take?_contents htake] at hcontents
    refine ⟨setResults h hs (fun r' hr' => hcontents r' (List.mem_cons_of_mem _ hr'))
      (Channel.take?_some htake).2.2, ?_⟩
    rintro r' hr'
    cases hr'
    exact hcontents r List.mem_cons_self

/-- The owner of a live session does not find that nothing can come any more. -/
theorem receive_ne_disconnected (hs : x.sessions[s]? = some session) (hlive : session.Live) :
    x.receive s ≠ (.disconnected, x') := by
  intro hreceive
  rcases receive_disconnected hreceive with hnone | ⟨found, hfound, hend⟩
  · cases hnone.symm.trans hs
  · obtain rfl : found = session := Option.some.inj (hfound.symm.trans hs)
    rcases hend with hclosed | hend
    · cases hlive.results.symm.trans hclosed
    · simp [canReceive, hlive.relay] at hend

/-! ## Giving a session up -/

theorem carries_dropTasks (h : x.Carries genuine) (s : SessionId) :
    (x.dropTasks s).Carries genuine := by
  unfold dropTasks
  split
  · exact h
  · next session hs =>
    have hsession := h.sessions s session hs
    exact h.setSession hs ⟨hsession.tasks, hsession.holding, hsession.results⟩

theorem carries_dropResults (h : x.Carries genuine) (s : SessionId) :
    (x.dropResults s).Carries genuine := by
  unfold dropResults
  split
  · exact h
  · next session hs =>
    have hsession := h.sessions s session hs
    exact h.setSession hs ⟨hsession.tasks, hsession.holding,
      fun r hr => hsession.results r (Channel.contents_discard_subset _ hr)⟩

theorem spares_dropTasks (x : Exchange) (s : SessionId) : Spares s x (x.dropTasks s) := by
  unfold dropTasks
  split
  · exact Spares.refl s x
  · exact Spares.setSession x s _

theorem spares_dropResults (x : Exchange) (s : SessionId) : Spares s x (x.dropResults s) := by
  unfold dropResults
  split
  · exact Spares.refl s x
  · exact Spares.setSession x s _

end Exchange

end TaskFarm
