import TaskFarm.Proofs.Exchange.Sound

/-!
# Every deal keeps the account sound

What is needed of the surroundings is only that no two tasks that were sent share an id.
-/

namespace TaskFarm

namespace Account

variable {acc : Account} {s : SessionId} {session : Session} {task : Task}

theorem Covers.setResults (h : acc.Covers s session) {results : Channel Party TaskResult}
    (hcontents : ∀ r ∈ results.contents, (r.id, s) ∈ acc.registered)
    (hdropped : results.closed = true → s ∈ acc.dropped) :
    acc.Covers s { session with results } :=
  ⟨h.sent, h.once, h.fresh, h.holding, hcontents, hdropped⟩

theorem SentOnce.ne (h : SentOnce { acc with sent := acc.sent ++ [(s, task)] }) {s' : SessionId}
    {other : Task} (hother : (s', other) ∈ acc.sent) : other.id ≠ task.id := by
  have honce : ((acc.sent ++ [(s, task)]).map fun entry => entry.2.id).Nodup := h
  rw [List.map_append, List.nodup_append] at honce
  exact honce.2.2 _ (List.mem_map.mpr ⟨_, hother, rfl⟩) _ (by simp)

end Account

namespace Audited

open Exchange

variable {acc : Account} {x x' : Exchange} {s : SessionId} {session : Session} {task : Task}

theorem Sound.congr (h : Sound ⟨acc, x⟩) (hroutes : x'.routes = x.routes)
    (hsessions : x'.sessions = x.sessions) (hqueue : x'.queue = x.queue) : Sound ⟨acc, x'⟩ := by
  cases x
  cases x'
  cases hroutes
  cases hsessions
  cases hqueue
  exact { h with }

/-- A relay that holds nothing has nothing pending at the queue. -/
theorem Sound.not_pending (h : Sound ⟨acc, x⟩) (hs : x.sessions[s]? = some session)
    (hrelay : session.relay = .idle) (task : Task) : (s, task) ∉ x.queue.pending := by
  intro hpending
  have hheld := h.pending s task hpending
  simp [relay?, hs, hrelay] at hheld

/-- A task is held by the relay of one session only. -/
theorem Sound.held_once (h : Sound ⟨acc, x⟩) {i : TaskId} (hi : (i, s) ∈ acc.registered)
    {s' : SessionId} {other : Session} (hother : x.sessions[s']? = some other) (hne : s' ≠ s)
    (hrelay : other.relay = .holding task) : task.id ≠ i := by
  intro he
  have hheld := ((h.covers s' other hother).holding task hrelay).1
  exact hne (Account.registered_inj h.knownOnce (he ▸ hheld) hi)

/-! ## Sessions and their tasks -/

/-- A channel lets a task in. -/
theorem Sound.lets_in (h : Sound ⟨acc, x⟩) (hs : x.sessions[s]? = some session)
    {tasks : Channel Party Task} (hbuffer : tasks.buffer = session.tasks.buffer ++ [task])
    (honce : Account.SentOnce { acc with sent := acc.sent ++ [(s, task)] }) :
    Sound ⟨{ acc with sent := acc.sent ++ [(s, task)] },
      x.setSession s { session with tasks }⟩ := by
  have hcovers := h.covers s session hs
  have hadded := (h.addSent honce).covers s session hs
  have hnew : task.id ∉ acc.known := by
    intro hi
    obtain ⟨⟨i, s'⟩, hregistered, he⟩ := List.mem_map.mp hi
    obtain ⟨other, hother, hid⟩ := (h.known i s' hregistered).2
    exact honce.ne hother (hid.trans he)
  refine (h.addSent honce).setSession_relay hs ?_ rfl
  refine ⟨?_, ?_, ?_, hadded.holding, hadded.results, hadded.dropped⟩
  · intro t ht
    rcases List.mem_append.mp (hbuffer ▸ ht) with ht | ht
    · exact hadded.sent t ht
    · rw [List.mem_singleton.mp ht]
      exact List.mem_append_right _ (List.mem_singleton_self _)
  · have hperm : (tasks.buffer.map Task.id).Perm (task.id :: session.tasks.buffer.map Task.id) := by
      simp [hbuffer]
    refine hperm.nodup_iff.mpr (List.nodup_cons.mpr ⟨?_, hcovers.once⟩)
    intro hi
    obtain ⟨other, hother, he⟩ := List.mem_map.mp hi
    exact honce.ne (hcovers.sent other hother) he
  · intro t ht
    rcases List.mem_append.mp (hbuffer ▸ ht) with ht | ht
    · exact hcovers.fresh t ht
    · rw [List.mem_singleton.mp ht]
      exact hnew

/-- A channel lets nobody in, and may lose a sender. -/
theorem Sound.keeps_out (h : Sound ⟨acc, x⟩) (hs : x.sessions[s]? = some session)
    {tasks : Channel Party Task} (hbuffer : tasks.buffer = session.tasks.buffer) :
    Sound ⟨acc, x.setSession s { session with tasks }⟩ :=
  h.setSession_relay hs
    ((h.covers s session hs).shrink (by rw [hbuffer]) (fun _ => id) session.senderGone) rfl

theorem Sound.send (h : Sound ⟨acc, x⟩) {party : Party} {sending : Sending}
    (hsend : x.send s party task = (sending, x'))
    (honce : (noteSent ⟨acc, x'⟩ s (some task) sending).account.SentOnce) :
    (noteSent ⟨acc, x'⟩ s (some task) sending).Sound := by
  rcases send_cases hsend with ⟨rfl, rfl, -⟩ | ⟨session, tasks, hs, -, hoffer, rfl⟩
  · exact h
  · rcases Channel.offer_cases hoffer with ⟨rfl, -, rfl⟩ | ⟨rfl, -, rfl⟩ | ⟨rfl, -, rfl⟩
    · exact h.keeps_out hs rfl
    · exact h.lets_in hs rfl honce
    · exact h.keeps_out hs rfl

theorem Sound.resumeSend (h : Sound ⟨acc, x⟩) {party : Party} {sending : Sending}
    (hsend : x.resumeSend? s party = some (sending, x'))
    (honce : (noteSent ⟨acc, x'⟩ s (x.reserved? s party) sending).account.SentOnce) :
    (noteSent ⟨acc, x'⟩ s (x.reserved? s party) sending).Sound := by
  obtain ⟨session, tasks, hs, hresume, rfl⟩ := resumeSend?_cases hsend
  rcases Channel.resume?_cases hresume with ⟨rfl, -, rfl⟩ | ⟨task, rfl, -, hreserved, -, rfl⟩
  · exact h.keeps_out hs (session.tasks.withdraw_eq party).1
  · have hheld : x.reserved? s party = some task := by simp [reserved?, hs, hreserved]
    rw [hheld] at honce ⊢
    exact h.lets_in hs rfl honce

theorem Sound.withdrawSend (h : Sound ⟨acc, x⟩) (s : SessionId) (party : Party) :
    Sound ⟨acc, x.withdrawSend s party⟩ := by
  unfold Exchange.withdrawSend
  split
  · exact h
  · next session hs => exact h.keeps_out hs (session.tasks.withdraw_eq party).1

theorem Sound.dropTasks (h : Sound ⟨acc, x⟩) (s : SessionId) : Sound ⟨acc, x.dropTasks s⟩ := by
  unfold Exchange.dropTasks
  split
  · exact h
  · next session hs =>
    exact h.setSession_relay hs
      ((h.covers s session hs).shrink (List.Sublist.refl _) (fun _ => id) true) rfl

/-! ## Relays -/

theorem Sound.takes (h : Sound ⟨acc, x⟩) (hs : x.sessions[s]? = some session)
    (hrelay : session.relay = .idle) {tasks : Channel Party Task}
    (htake : session.tasks.take? = some (task, tasks)) :
    Sound ⟨{ acc with registered := acc.registered ++ [(task.id, s)] },
      (x.addRoute task.id s).setSession s { session with tasks, relay := .holding task }⟩ := by
  have hcovers := h.covers s session hs
  obtain ⟨hbuffer, -, -⟩ := Channel.take?_some htake
  have htask : task ∈ session.tasks.buffer := by simp [hbuffer]
  have hnew := hcovers.fresh task htask
  obtain ⟨hlt, -⟩ := Array.getElem?_eq_some_iff.mp hs
  -- the task leaves the channel, then it gets its route, then the relay holds it
  have hleft : Sound ⟨acc, x.setSession s { session with tasks }⟩ :=
    h.setSession_relay hs (hcovers.shrink (by simp [hbuffer]) (fun _ => id) session.senderGone) rfl
  have hgone : ∀ (s' : SessionId) (found : Session),
      (x.setSession s { session with tasks }).sessions[s']? = some found →
      ∀ other ∈ found.tasks.buffer, other.id ≠ task.id := by
    intro s' found hfound other hother he
    rcases setSession_cases hs hfound with ⟨rfl, rfl⟩ | ⟨hne, hfound⟩
    · have honce := hcovers.once
      rw [hbuffer, List.map_cons, List.nodup_cons] at honce
      exact honce.1 (List.mem_map.mpr ⟨other, hother, he⟩)
    · have hsent := (h.covers s' found hfound).sent other hother
      exact hne (h.sentOnce.eq hsent (hcovers.sent task htask) he).1
  have hrouted := hleft.addRoute (by simpa using hlt) (hcovers.sent task htask) hnew hgone
  have hfound : ((x.setSession s { session with tasks }).addRoute task.id s).sessions[s]? =
      some { session with tasks } := setSession_self hs _
  have hheld := hrouted.covers s _ hfound
  have hholding : Account.Covers { acc with registered := acc.registered ++ [(task.id, s)] } s
      { session with tasks, relay := .holding task } := by
    refine ⟨hheld.sent, hheld.once, hheld.fresh, ?_, hheld.results, hheld.dropped⟩
    rintro t ht
    cases ht
    refine ⟨List.mem_append_right _ (List.mem_singleton_self _), ?_, ?_⟩
    · exact fun hi => hnew (h.queued _ hi).1
    · exact fun hi => hnew (h.settled (List.mem_append_right _ hi))
  have hfinal := hrouted.setSession hfound hholding
    fun t ht => absurd ht (h.not_pending hs hrelay t)
  have heq : ((x.setSession s { session with tasks }).addRoute task.id s).setSession s
      { session with tasks, relay := .holding task } =
      (x.addRoute task.id s).setSession s { session with tasks, relay := .holding task } :=
    setSession_setSession (x := x.addRoute task.id s) _ _
  rwa [heq] at hfinal

theorem Sound.ends (h : Sound ⟨acc, x⟩) (hs : x.sessions[s]? = some session)
    (hrelay : session.relay = .idle) (tasks : Channel Party Task) :
    Sound ⟨acc, x.endRelay s { session with tasks }⟩ :=
  h.setSession hs
    ((h.covers s session hs).shrink (List.nil_sublist _)
      (fun t (ht : Relay.ended = .holding t) => nomatch ht) session.senderGone)
    fun t ht => absurd ht (h.not_pending hs hrelay t)

/-- A session whose relay lets go of its task, while nothing of it waits at the queue. -/
theorem Sound.lets_go (h : Sound ⟨acc, x⟩) (hs : x.sessions[s]? = some session)
    {queue : Channel SessionId Task}
    (hpending : queue.pending = Channel.others s x.queue.pending)
    (hbuffer : queue.buffer = x.queue.buffer) {tasks : Channel Party Task}
    (htasks : tasks.buffer.Sublist session.tasks.buffer) {relay : Relay}
    (hrelay : ∀ t, relay ≠ .holding t) :
    Sound ⟨acc, { x with queue }.setSession s { session with tasks, relay }⟩ := by
  have hqueue : Sound ⟨acc, { x with queue }⟩ :=
    h.setQueue (fun t ht => h.inQueue t (hbuffer ▸ ht))
      (hpending ▸ Channel.others_sublist s x.queue.pending)
  refine hqueue.setSession hs ?_ ?_
  · exact (hqueue.covers s session hs).shrink htasks (fun t ht => absurd ht (hrelay t)) _
  · intro t ht
    have hmem : (s, t) ∈ Channel.others s x.queue.pending := hpending ▸ ht
    exact absurd (List.mem_map.mpr ⟨_, hmem, rfl⟩) (Channel.not_mem_others s _)

/-- A relay that lets go of a task leaves it to nobody else. -/
theorem Sound.free_of_setSession (h : Sound ⟨acc, x⟩) (hs : x.sessions[s]? = some session)
    {i : TaskId} (hi : (i, s) ∈ acc.registered) (session' : Session)
    (hrelay : ∀ t, session'.relay ≠ .holding t) (s' : SessionId) (found : Session)
    (hfound : (x.setSession s session').sessions[s']? = some found) (t : Task)
    (ht : found.relay = .holding t) : t.id ≠ i := by
  rcases setSession_cases hs hfound with ⟨rfl, rfl⟩ | ⟨hne, hfound⟩
  · exact absurd ht (hrelay t)
  · exact h.held_once hi hfound hne ht

theorem Sound.waits (h : Sound ⟨acc, x⟩) (hs : x.sessions[s]? = some session)
    (hrelay : session.relay = .holding task) {queue : Channel SessionId Task}
    (hnew : s ∉ x.queue.pending.map Prod.fst) (hbuffer : queue.buffer = x.queue.buffer)
    (hpending : queue.pending = x.queue.pending ++ [(s, task)]) :
    Sound ⟨acc, { x with queue }⟩ :=
  { h with
    inQueue := fun t ht => h.inQueue t (hbuffer ▸ ht)
    pendingOnce := by
      have hperm : (queue.pending.map Prod.fst).Perm (s :: x.queue.pending.map Prod.fst) := by
        simp [hpending]
      exact hperm.nodup_iff.mpr (List.nodup_cons.mpr ⟨hnew, h.pendingOnce⟩)
    pending := by
      intro s' t ht
      rcases List.mem_append.mp (hpending ▸ ht) with ht | ht
      · exact h.pending s' t ht
      · obtain ⟨rfl, rfl⟩ := Prod.mk.inj (List.mem_singleton.mp ht)
        simp [relay?, hs, hrelay] }

theorem Sound.puts (h : Sound ⟨acc, x⟩) (hs : x.sessions[s]? = some session)
    (hrelay : session.relay = .holding task) {queue : Channel SessionId Task}
    (hbuffer : queue.buffer = x.queue.buffer ++ [task])
    (hpending : queue.pending = Channel.others s x.queue.pending) :
    Sound ⟨{ acc with queued := acc.queued ++ [task.id] },
      { x with queue }.setSession s { session with relay := .idle }⟩ := by
  obtain ⟨hregistered, -, hkept⟩ := (h.covers s session hs).holding task hrelay
  have hunheld : ∀ t, Relay.idle ≠ .holding t := nofun
  -- the relay stops to wait at the queue, then the task appears in it
  have hleft : Channel.pending { queue with buffer := x.queue.buffer } =
      Channel.others s x.queue.pending := hpending
  have hgo := h.lets_go hs hleft rfl (List.Sublist.refl _) hunheld
  have hqueued := hgo.addQueued (h.mem_known hregistered) hkept
    (h.free_of_setSession hs hregistered { session with relay := .idle } hunheld)
  refine hqueued.setQueue ?_ (List.Sublist.refl _)
  intro t ht
  rcases List.mem_append.mp (hbuffer ▸ ht) with ht | ht
  · exact List.mem_append_left _ (h.inQueue t ht)
  · rw [List.mem_singleton.mp ht]
    exact List.mem_append_right _ (List.mem_singleton_self _)

theorem Sound.withdraws (h : Sound ⟨acc, x⟩) (hs : x.sessions[s]? = some session)
    (hrelay : session.relay = .holding task) {queue : Channel SessionId Task}
    (hbuffer : queue.buffer = x.queue.buffer)
    (hpending : queue.pending = Channel.others s x.queue.pending) :
    Sound ⟨if (x.route? task.id).isSome then
        { acc with withdrawn := acc.withdrawn ++ [task.id] } else acc,
      ({ x with queue }.removeRoute task.id).endRelay s session⟩ := by
  obtain ⟨hregistered, hunqueued, -⟩ := (h.covers s session hs).holding task hrelay
  have hunheld : ∀ t, Relay.ended ≠ .holding t := nofun
  have hgo : Sound ⟨acc, { x with queue }.endRelay s session⟩ :=
    h.lets_go hs hpending hbuffer (List.nil_sublist _) hunheld
  cases hroute : x.route? task.id with
  | none =>
      have hsame := removeRoute_eq_self (x := { x with queue }) hroute
      rw [hsame]
      exact hgo
  | some s' =>
      exact hgo.addWithdrawn (s := s') (route?_eq_some hroute) hunqueued
        (h.free_of_setSession hs hregistered _ hunheld)

theorem relay?_setSession (hs : x.sessions[s]? = some session) (session' : Session) :
    (x.setSession s session').relay? s = some session'.relay := by
  simp [relay?, setSession_self hs]

theorem relay?_endRelay (hs : x.sessions[s]? = some session) (session' : Session) :
    (x.endRelay s session').relay? s = some .ended :=
  relay?_setSession hs { session' with relay := .ended, tasks := session'.tasks.discard }

theorem Sound.relayPuts (h : Sound ⟨acc, x⟩) (hs : x.sessions[s]? = some session)
    (hrelay : session.relay = .holding task) (hstep : x.relayPuts? s session task = some x') :
    (noteRelay ⟨acc, x'⟩ s (x.relay? s) (x'.relay? s) fun i => (x.route? i).isSome).Sound := by
  have hbefore : x.relay? s = some (.holding task) := by simp [relay?, hs, hrelay]
  have hpendingOnce : (x.queue.pending.map Prod.fst).Nodup := h.pendingOnce
  obtain ⟨sending, queue, hattempt, hcases⟩ := relayPuts?_cases hstep
  rcases Channel.attempt?_cases hpendingOnce hattempt with
    ⟨rfl, -, hnew, hbuffer, hpending⟩ | ⟨hpending, ⟨rfl, -, hbuffer⟩ | ⟨u, rfl, -, hu, hbuffer⟩⟩
  · obtain rfl : x' = { x with queue } := by simpa using hcases
    have hafter : Exchange.relay? { x with queue } s = some (.holding task) := hbefore
    rw [hbefore, hafter]
    exact h.waits hs hrelay hnew hbuffer hpending
  · obtain rfl : x' = ({ x with queue }.removeRoute task.id).endRelay s session := by
      simpa using hcases
    have hkept : ({ x with queue }.removeRoute task.id).sessions[s]? = some session := hs
    have hafter := relay?_endRelay hkept session
    have hsound := h.withdraws hs hrelay hbuffer hpending
    rw [hbefore, hafter]
    simp only [noteRelay]
    split
    · next hroute => simpa only [hroute, if_true] using hsound
    · next hroute => simpa only [hroute, Bool.false_eq_true, if_false] using hsound
  · obtain rfl : x' = { x with queue }.setSession s { session with relay := .idle } := by
      simpa using hcases
    have hkept : ({ x with queue } : Exchange).sessions[s]? = some session := hs
    have hafter := relay?_setSession hkept { session with relay := .idle }
    have htask : u = task := by
      rcases hu with hu | hu
      · exact hu
      · exact (Relay.holding.inj (Option.some.inj (hbefore.symm.trans (h.pending s u hu)))).symm
    rw [hbefore, hafter]
    exact h.puts hs hrelay (htask ▸ hbuffer) hpending

theorem Sound.relayStep (h : Sound ⟨acc, x⟩) (hstep : x.relayStep? s = some x') :
    (noteRelay ⟨acc, x'⟩ s (x.relay? s) (x'.relay? s) fun i => (x.route? i).isSome).Sound := by
  obtain ⟨session, hs, ⟨hrelay, htakes⟩ | ⟨task, hrelay, hputs⟩⟩ := relayStep?_cases hstep
  · have hbefore : x.relay? s = some .idle := by simp [relay?, hs, hrelay]
    rcases relayTakes?_cases htakes with ⟨task, tasks, htake, -, rfl⟩ | ⟨tasks, -, -, rfl⟩
    · have hafter := relay?_setSession (x := x.addRoute task.id s) hs
        { session with tasks, relay := .holding task }
      rw [hbefore, hafter]
      exact h.takes hs hrelay htake
    · have hafter : (x.endRelay s { session with tasks }).relay? s = some .ended :=
        relay?_endRelay hs _
      rw [hbefore, hafter]
      exact h.ends hs hrelay tasks
  · exact h.relayPuts hs hrelay hputs

/-! ## Fetching -/

theorem Sound.fetch (h : Sound ⟨acc, x⟩) {reply : Option FetchReply}
    (hfetches : Fetches x reply x') :
    (noteFetched ⟨acc, x'⟩ reply).Sound := by
  have hqueued : ∀ t ∈ x.queue.buffer, t.id ∈ acc.queued := h.inQueue
  have hafter : (∀ t ∈ x'.queue.buffer, t.id ∈ acc.queued) → Sound ⟨acc, x'⟩ := by
    intro hbuffer
    have hqueue : Sound ⟨acc, { x with queue := x'.queue }⟩ :=
      h.setQueue hbuffer (by rw [hfetches.pending_eq])
    exact hqueue.congr hfetches.routes_eq hfetches.sessions_eq rfl
  rcases hfetches.took with ⟨task, rfl, hbuffer⟩ | ⟨hnone, hbuffer⟩
  · rw [hbuffer] at hqueued
    exact (hafter fun t ht => hqueued t (List.mem_cons_of_mem _ ht)).addFetched
      (hqueued task List.mem_cons_self)
  · have hsame : noteFetched ⟨acc, x'⟩ reply = ⟨acc, x'⟩ := by
      unfold noteFetched
      split
      · next task => exact absurd rfl (hnone task)
      · rfl
    rw [hsame]
    exact hafter (hbuffer ▸ hqueued)

/-! ## Submitting and receiving -/

theorem Sound.setResults (h : Sound ⟨acc, x⟩) (hs : x.sessions[s]? = some session)
    {results : Channel Party TaskResult}
    (hcontents : ∀ r ∈ results.contents, (r.id, s) ∈ acc.registered)
    (hclosed : results.closed = session.results.closed) :
    Sound ⟨acc, x.setSession s { session with results }⟩ :=
  have hcovers := h.covers s session hs
  h.setSession_relay hs (hcovers.setResults hcontents (hclosed ▸ hcovers.dropped)) rfl

theorem Sound.submit (h : Sound ⟨acc, x⟩) (party : Party) (r : TaskResult) :
    (noteSubmitted ⟨acc, (x.submit party r).2⟩ r.id (x.route? r.id).isSome).Sound := by
  rcases submit_cases (Prod.eta (x.submit party r)).symm with ⟨hroute, -, hx⟩ | ⟨s, hroute, hcases⟩
  · rw [hx, hroute]
    exact h
  · have hsubmitted := h.addSubmitted (route?_eq_some hroute)
    have hregistered := (h.mem_routes.mp (route?_eq_some hroute)).1
    rw [hroute]
    rcases hcases with ⟨-, -, hx⟩ | ⟨session, sending, results, hs, hoffer, -, hx⟩
    · rw [hx]
      exact hsubmitted
    · rw [hx]
      refine hsubmitted.setResults hs ?_ (Channel.offer_closed hoffer)
      intro r' hr'
      rcases List.mem_cons.mp (Channel.offer_contents_subset hoffer hr') with rfl | hr'
      · exact hregistered
      · exact (h.covers s session hs).results r' hr'

theorem Sound.resumeSubmit (h : Sound ⟨acc, x⟩) {party : Party} {i : TaskId} {answer : Submission}
    (hresume : x.resumeSubmit? s party i = some (answer, x')) : Sound ⟨acc, x'⟩ := by
  obtain ⟨session, sending, results, hs, hresults, -, rfl⟩ := resumeSubmit?_cases hresume
  exact h.setResults hs
    (fun r hr => (h.covers s session hs).results r (Channel.resume?_contents_subset hresults hr))
    (Channel.resume?_closed hresults)

theorem Sound.receive (h : Sound ⟨acc, x⟩) {received : Received}
    (hreceive : x.receive s = (received, x')) : (noteReceived ⟨acc, x'⟩ s received).Sound := by
  rcases receive_cases hreceive with ⟨hnone, rfl⟩ | ⟨session, r, results, hs, rfl, htake, rfl⟩
  · cases received with
    | result r => exact absurd rfl (hnone r)
    | empty => exact h
    | disconnected => exact h
  · have hcontents := (h.covers s session hs).results
    rw [Channel.take?_contents htake] at hcontents
    have hreceived := h.setResults hs
      (fun r' hr' => hcontents r' (List.mem_cons_of_mem _ hr')) (Channel.take?_some htake).2.2
    exact hreceived.addReceived (hcontents r List.mem_cons_self)

theorem Sound.dropResults (h : Sound ⟨acc, x⟩) (s : SessionId) :
    (noteDropped ⟨acc, x.dropResults s⟩ s).Sound := by
  have hdropped := h.addDropped s
  unfold Exchange.dropResults
  split
  · exact hdropped
  · next session hs =>
    refine hdropped.setSession_relay hs ?_ rfl
    refine (hdropped.covers s session hs).setResults ?_ ?_
    · intro r hr
      exact (h.covers s session hs).results r (Channel.contents_discard_subset _ hr)
    · exact fun _ => List.mem_append_right _ (List.mem_singleton_self _)

theorem Sound.close (h : Sound ⟨acc, x⟩) : Sound ⟨acc, x.close⟩ := by
  have hclosed : Sound ⟨acc, { x with closed := true }⟩ := h.setLine x.line true
  unfold Exchange.close
  simp only
  split
  · obtain ⟨queue, heq, hbuffer, hpending, -⟩ := closeQueueIfClosed_eq { x with closed := true }
    rw [heq]
    exact hclosed.setQueue (fun t ht => h.inQueue t (hbuffer ▸ ht)) (by rw [hpending])
  · exact hclosed

/-! ## Any list of deals -/

theorem Sound.deal? {a b : Audited} {d : Deal} (h : a.Sound) (hdeal : a.deal? d = some b)
    (honce : b.account.SentOnce) : b.Sound := by
  cases d with
  | openSession =>
      cases hdeal
      exact h.openSession
  | send s party task =>
      cases hdeal
      exact h.send rfl honce
  | resumeSend s party =>
      obtain ⟨⟨sending, x⟩, hsend, rfl⟩ := Option.map_eq_some_iff.mp hdeal
      exact h.resumeSend hsend honce
  | withdrawSend s party =>
      cases hdeal
      exact h.withdrawSend s party
  | dropTasks s =>
      cases hdeal
      exact h.dropTasks s
  | relay s =>
      obtain ⟨x, hstep, rfl⟩ := Option.map_eq_some_iff.mp hdeal
      exact h.relayStep hstep
  | startFetch party =>
      cases hdeal
      exact h.setLine _ _
  | fetch party now =>
      obtain ⟨⟨reply, x⟩, hfetch, rfl⟩ := Option.map_eq_some_iff.mp hdeal
      exact h.fetch (fetches_of_fetchStep? hfetch)
  | leaveLine party =>
      cases hdeal
      exact h.setLine _ _
  | submit party r =>
      cases hdeal
      exact h.submit party r
  | resumeSubmit s party i =>
      obtain ⟨⟨answer, x⟩, hresume, rfl⟩ := Option.map_eq_some_iff.mp hdeal
      exact h.resumeSubmit hresume
  | receive s =>
      cases hdeal
      exact h.receive rfl
  | dropResults s =>
      cases hdeal
      exact h.dropResults s
  | close =>
      cases hdeal
      exact h.close

end Audited

end TaskFarm
