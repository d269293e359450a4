import TaskFarm.Proofs.Exchange.Deals

/-!
# Results find their way back

Whatever the order of deals, a result comes only to the session that sent its task, a route is used
at most once, and the number of tasks in flight is what the account says.  The first result for a
task that somebody fetched finds the route, since a relay notes it before the task gets into the
queue and forgets it only if the task does not.
-/

namespace TaskFarm

namespace Audited

open Exchange

/-- A result has come to a session: its owner has taken it, or finds it there. -/
def Reaches (a : Audited) (s : SessionId) (r : TaskResult) : Prop :=
  (s, r) ∈ a.account.received ∨
    ∃ session, a.exchange.sessions[s]? = some session ∧ r ∈ session.results.buffer

/-- A submission gets a result into a session, leaves it waiting there, or fails because the
session's receiving side has gone away. -/
def Delivers (a : Audited) (s : SessionId) (party : Party) (r : TaskResult) :
    Submission × Exchange → Prop
  | (.delivered, x) => ∃ session, x.sessions[s]? = some session ∧ r ∈ session.results.buffer
  | (.waiting s', x) =>
    s' = s ∧ ∃ session, x.sessions[s]? = some session ∧ (party, r) ∈ session.results.pending
  | (.failed error, _) => error = .sessionClosed r.id ∧ s ∈ a.account.dropped

/-- The law of an exchange, whatever has happened at it. -/
structure RoutesResults (a : Audited) : Prop where
  /-- Results come only to the session that sent their task. -/
  reaches : ∀ s r, a.Reaches s r → a.account.HasSent s r.id
  /-- No two submissions for one task find a route. -/
  submittedOnce : a.account.submitted.Nodup
  /-- A result without a task, or with an answered one, is refused and nothing changes. -/
  unknown : ∀ party r, r.id ∉ a.account.known ∨ r.id ∈ a.account.submitted →
    a.exchange.submit party r = (.failed (.unknownTask r.id), a.exchange)
  /-- The first result for a task that was fetched goes to the session that sent it. -/
  fetched : ∀ party r, r.id ∈ a.account.fetched → r.id ∉ a.account.submitted →
    ∃ s, a.account.HasSent s r.id ∧ a.Delivers s party r (a.exchange.submit party r)
  /-- A result that waited is delivered, unless the receiving side has gone away meanwhile. -/
  resumed : ∀ s party id answer x, a.exchange.resumeSubmit? s party id = some (answer, x) →
    answer = .delivered ∨ (answer = .failed (.sessionClosed id) ∧ s ∈ a.account.dropped)
  inFlight_eq : a.exchange.inFlight + a.account.submitted.length + a.account.withdrawn.length =
    a.account.registered.length
  /-- A task is withdrawn only if the queue is closed. -/
  withdrawn : ∀ d b, a.deal? d = some b → b.account.withdrawn ≠ a.account.withdrawn →
    a.exchange.queue.closed = true

variable {a b : Audited}

theorem Sound.reaches (h : a.Sound) {s : SessionId} {r : TaskResult} (hr : a.Reaches s r) :
    a.account.HasSent s r.id := by
  rcases hr with hr | ⟨session, hs, hr⟩
  · exact (h.known _ _ (h.received s r hr)).2
  · have hregistered := (h.covers s session hs).results r (Channel.mem_contents.mpr (.inl hr))
    exact (h.known _ _ hregistered).2

theorem Sound.submit_unknown (h : a.Sound) {r : TaskResult}
    (hr : r.id ∉ a.account.known ∨ r.id ∈ a.account.submitted) (party : Party) :
    a.exchange.submit party r = (.failed (.unknownTask r.id), a.exchange) := by
  have hroute : a.exchange.route? r.id = none := by
    refine route?_eq_none.mpr fun hid => ?_
    obtain ⟨⟨i, s⟩, hi, rfl⟩ := List.mem_map.mp hid
    obtain ⟨hregistered, hunsettled⟩ := h.mem_routes.mp hi
    rcases hr with hr | hr
    · exact hr (h.mem_known hregistered)
    · exact hunsettled (List.mem_append_left _ hr)
  simp [Exchange.submit, hroute]

theorem Sound.submit_fetched (h : a.Sound) {r : TaskResult} (hfetched : r.id ∈ a.account.fetched)
    (hfirst : r.id ∉ a.account.submitted) (party : Party) :
    ∃ s, a.account.HasSent s r.id ∧ a.Delivers s party r (a.exchange.submit party r) := by
  obtain ⟨hknown, hkept⟩ := h.queued _ (h.fetched hfetched)
  have hunsettled : r.id ∉ a.account.settled := by
    simpa [Account.settled] using And.intro hfirst hkept
  obtain ⟨⟨i, s⟩, hregistered, rfl⟩ := List.mem_map.mp hknown
  have hrouted := h.mem_routes.mpr ⟨hregistered, hunsettled⟩
  cases hsubmit : a.exchange.submit party r with
  | mk answer x =>
    rcases submit_cases hsubmit with ⟨hnone, -, -⟩ | ⟨s', hroute, hcases⟩
    · exact absurd (List.mem_map.mpr ⟨_, hrouted, rfl⟩) (route?_eq_none.mp hnone)
    · obtain ⟨hregistered', -⟩ := h.mem_routes.mp (route?_eq_some hroute)
      obtain ⟨hlt, hsent⟩ := h.known _ _ hregistered'
      refine ⟨s', hsent, ?_⟩
      rcases hcases with ⟨hs, -, -⟩ | ⟨session, sending, results, hs, hoffer, rfl, rfl⟩
      · exact absurd hs (by simp [hlt])
      · have hfound :=
          setSession_self (x := a.exchange.removeRoute r.id) hs { session with results }
        rcases Channel.offer_cases hoffer with ⟨rfl, hclosed, -⟩ | ⟨rfl, -, rfl⟩ | ⟨rfl, -, rfl⟩
        · exact ⟨rfl, (h.covers s' session hs).dropped hclosed⟩
        · exact ⟨_, hfound, List.mem_append_right _ (List.mem_singleton_self _)⟩
        · refine ⟨rfl, _, hfound, ?_⟩
          simp [Channel.pending]

theorem Sound.resumeSubmit_delivers (h : a.Sound) {s : SessionId} {party : Party} {i : TaskId}
    {answer : Submission} {x : Exchange}
    (hresume : a.exchange.resumeSubmit? s party i = some (answer, x)) :
    answer = .delivered ∨ (answer = .failed (.sessionClosed i) ∧ s ∈ a.account.dropped) := by
  obtain ⟨session, sending, results, hs, hresults, rfl, -⟩ := resumeSubmit?_cases hresume
  rcases Channel.resume?_cases hresults with ⟨rfl, hclosed, -⟩ | ⟨v, rfl, -, -, -, -⟩
  · exact .inr ⟨rfl, (h.covers s session hs).dropped hclosed⟩
  · exact .inl rfl

/-- Every task that has had a route has it still, or is settled. -/
theorem Sound.inFlight_eq (h : a.Sound) :
    a.exchange.inFlight + a.account.submitted.length + a.account.withdrawn.length =
      a.account.registered.length := by
  have hperm : ((a.account.registered.filter fun route =>
      !decide (route.1 ∉ a.account.settled)).map Prod.fst).Perm a.account.settled := by
    refine (List.perm_ext_iff_of_nodup ?_ h.settledOnce).mpr fun i => ?_
    · exact h.knownOnce.sublist (List.filter_sublist.map _)
    · simp only [List.mem_map, List.mem_filter]
      constructor
      · rintro ⟨route, ⟨-, hsettled⟩, rfl⟩
        simpa using hsettled
      · intro hi
        obtain ⟨route, hroute, rfl⟩ := List.mem_map.mp (h.settled hi)
        exact ⟨route, ⟨hroute, by simpa using hi⟩, rfl⟩
  have hsettled := hperm.length_eq
  have hsplit := List.length_eq_length_filter_add (l := a.account.registered)
    fun route => decide (route.1 ∉ a.account.settled)
  rw [List.length_map] at hsettled
  rw [inFlight, h.routes_eq, hsplit, hsettled, Account.settled, List.length_append]
  omega

/-! ## What a deal adds to the account -/

theorem noteFetched_eq (a : Audited) (reply : Option FetchReply) :
    a.account.sent <+: (a.noteFetched reply).account.sent ∧
      (a.noteFetched reply).account.withdrawn = a.account.withdrawn := by
  unfold noteFetched
  split
  · exact ⟨List.prefix_rfl, rfl⟩
  · exact ⟨List.prefix_rfl, rfl⟩

theorem noteSubmitted_eq (a : Audited) (i : TaskId) (routed : Bool) :
    a.account.sent <+: (a.noteSubmitted i routed).account.sent ∧
      (a.noteSubmitted i routed).account.withdrawn = a.account.withdrawn := by
  unfold noteSubmitted
  split
  · exact ⟨List.prefix_rfl, rfl⟩
  · exact ⟨List.prefix_rfl, rfl⟩

theorem noteReceived_eq (a : Audited) (s : SessionId) (received : Received) :
    a.account.sent <+: (a.noteReceived s received).account.sent ∧
      (a.noteReceived s received).account.withdrawn = a.account.withdrawn := by
  unfold noteReceived
  split
  · exact ⟨List.prefix_rfl, rfl⟩
  · exact ⟨List.prefix_rfl, rfl⟩

theorem noteSent_eq (a : Audited) (s : SessionId) (task? : Option Task) (sending : Sending) :
    a.account.sent <+: (a.noteSent s task? sending).account.sent ∧
      (a.noteSent s task? sending).account.withdrawn = a.account.withdrawn := by
  cases sending with
  | accepted => exact ⟨List.prefix_append _ _, rfl⟩
  | waiting => exact ⟨List.prefix_rfl, rfl⟩
  | refused => exact ⟨List.prefix_rfl, rfl⟩

theorem noteRelay_sent (a : Audited) (s : SessionId) (old new : Option Relay)
    (routed : TaskId → Bool) :
    a.account.sent <+: (a.noteRelay s old new routed).account.sent := by
  unfold noteRelay
  split
  · exact List.prefix_rfl
  · exact List.prefix_rfl
  · split
    · exact List.prefix_rfl
    · exact List.prefix_rfl
  · exact List.prefix_rfl

theorem noteRelay_withdrawn (a : Audited) (s : SessionId) {old new : Option Relay}
    (routed : TaskId → Bool)
    (h : old = some .idle ∨ new ≠ some .ended) :
    (a.noteRelay s old new routed).account.withdrawn = a.account.withdrawn := by
  unfold noteRelay
  split
  · rfl
  · rfl
  · rcases h with h | h
    · cases h
    · exact absurd rfl h
  · rfl

/-- Only a relay that finds the queue closed withdraws its task. -/
theorem Sound.queue_closed_of_relayStep (h : a.Sound) {s : SessionId} {x : Exchange}
    (hstep : a.exchange.relayStep? s = some x)
    (hne : ¬(a.exchange.relay? s = some .idle ∨ x.relay? s ≠ some .ended)) :
    a.exchange.queue.closed = true := by
  obtain ⟨session, hs, ⟨hrelay, -⟩ | ⟨task, hrelay, hputs⟩⟩ := relayStep?_cases hstep
  · exact absurd (.inl (by simp [relay?, hs, hrelay])) hne
  · obtain ⟨sending, queue, hattempt, hcases⟩ := relayPuts?_cases hputs
    rcases Channel.attempt?_cases h.pendingOnce hattempt with
      ⟨rfl, -⟩ | ⟨-, ⟨rfl, hclosed, -⟩ | ⟨u, rfl, -⟩⟩
    · obtain rfl : x = { a.exchange with queue } := by simpa using hcases
      exact absurd (.inr (by simp [relay?, hs, hrelay])) hne
    · exact hclosed
    · obtain rfl : x = { a.exchange with queue }.setSession s { session with relay := .idle } := by
        simpa using hcases
      have hidle := relay?_setSession (x := { a.exchange with queue }) hs
        { session with relay := .idle }
      exact absurd (.inr (by simp [hidle])) hne

theorem Sound.queue_closed_of_withdrawn (h : a.Sound) {d : Deal} (hdeal : a.deal? d = some b)
    (hne : b.account.withdrawn ≠ a.account.withdrawn) : a.exchange.queue.closed = true := by
  cases d with
  | relay s =>
      obtain ⟨x, hstep, rfl⟩ := Option.map_eq_some_iff.mp hdeal
      exact h.queue_closed_of_relayStep hstep fun hkept => hne (noteRelay_withdrawn _ s _ hkept)
  | send s party task =>
      cases hdeal
      exact absurd (noteSent_eq _ _ _ _).2 hne
  | resumeSend s party =>
      obtain ⟨_, -, rfl⟩ := Option.map_eq_some_iff.mp hdeal
      exact absurd (noteSent_eq _ _ _ _).2 hne
  | fetch party now =>
      obtain ⟨_, -, rfl⟩ := Option.map_eq_some_iff.mp hdeal
      exact absurd (noteFetched_eq _ _).2 hne
  | submit party r =>
      cases hdeal
      exact absurd (noteSubmitted_eq _ _ _).2 hne
  | resumeSubmit s party i =>
      obtain ⟨_, -, rfl⟩ := Option.map_eq_some_iff.mp hdeal
      exact absurd rfl hne
  | receive s =>
      cases hdeal
      exact absurd (noteReceived_eq _ _ _).2 hne
  | openSession | withdrawSend | dropTasks | startFetch | leaveLine | dropResults | close =>
      cases hdeal
      exact absurd rfl hne

theorem deal?_sent {d : Deal} (hdeal : a.deal? d = some b) :
    a.account.sent <+: b.account.sent := by
  cases d with
  | relay s =>
      obtain ⟨x, -, rfl⟩ := Option.map_eq_some_iff.mp hdeal
      exact noteRelay_sent ⟨a.account, x⟩ _ _ _ _
  | send s party task =>
      cases hdeal
      exact (noteSent_eq ⟨a.account, (a.exchange.send s party task).2⟩ s (some task) _).1
  | resumeSend s party =>
      obtain ⟨⟨sending, x⟩, -, rfl⟩ := Option.map_eq_some_iff.mp hdeal
      exact (noteSent_eq ⟨a.account, x⟩ _ _ _).1
  | fetch party now =>
      obtain ⟨⟨reply, x⟩, -, rfl⟩ := Option.map_eq_some_iff.mp hdeal
      exact (noteFetched_eq ⟨a.account, x⟩ _).1
  | submit party r =>
      cases hdeal
      exact (noteSubmitted_eq ⟨a.account, (a.exchange.submit party r).2⟩ r.id _).1
  | resumeSubmit s party i =>
      obtain ⟨_, -, rfl⟩ := Option.map_eq_some_iff.mp hdeal
      exact List.prefix_rfl
  | receive s =>
      cases hdeal
      exact (noteReceived_eq ⟨a.account, (a.exchange.receive s).2⟩ s _).1
  | openSession | withdrawSend | dropTasks | startFetch | leaveLine | dropResults | close =>
      cases hdeal
      exact List.prefix_rfl

theorem deals?_sent {deals : List Deal} (hdeals : a.deals? deals = some b) :
    a.account.sent <+: b.account.sent := by
  induction deals generalizing a with
  | nil =>
      cases hdeals
      exact List.prefix_rfl
  | cons d rest ih =>
      obtain ⟨c, hdeal, hrest⟩ := Option.bind_eq_some_iff.mp hdeals
      exact (deal?_sent hdeal).trans (ih hrest)

/-! ## Any history -/

theorem Sound.deals? {deals : List Deal} (h : a.Sound) (hdeals : a.deals? deals = some b)
    (honce : b.account.SentOnce) : b.Sound := by
  induction deals generalizing a with
  | nil =>
      cases hdeals
      exact h
  | cons d rest ih =>
      obtain ⟨c, hdeal, hrest⟩ := Option.bind_eq_some_iff.mp hdeals
      have honceSoFar : c.account.SentOnce := honce.sublist ((deals?_sent hrest).sublist.map _)
      exact ih (h.deal? hdeal honceSoFar) hrest

theorem Sound.routesResults (h : a.Sound) : a.RoutesResults where
  reaches _ _ := h.reaches
  submittedOnce := (List.nodup_append.mp h.settledOnce).1
  unknown party _ hr := h.submit_unknown hr party
  fetched party _ hfetched hfirst := h.submit_fetched hfetched hfirst party
  resumed _ _ _ _ _ := h.resumeSubmit_delivers
  inFlight_eq := h.inFlight_eq
  withdrawn _ _ := h.queue_closed_of_withdrawn

/-- Whatever happens at an exchange, results find their way back, and at most once. -/
theorem deals?_routesResults {settings : QueueSettings} {deals : List Deal}
    (hdeals : (opened settings).deals? deals = some a) (honce : a.account.SentOnce) :
    a.RoutesResults :=
  ((sound_opened settings).deals? hdeals honce).routesResults

/-- Two sessions share an exchange with room for one task.  The first one's task is fetched and
answered twice; then the exchange is closed, and the second one's task is withdrawn. -/
theorem deals?_routesResults_shared :
    ∃ a, (opened ⟨1, none⟩).deals?
        [.openSession, .openSession,
          .send 0 0 (.make ⟨7⟩ .add 1.0 1.0 0), .send 1 1 (.make ⟨9⟩ .sub 5.0 1.0 0),
          .relay 0, .relay 1, .relay 0, .relay 1,
          .startFetch 5, .fetch 5 0, .submit 5 (.success ⟨7⟩ 2.0), .submit 5 (.success ⟨7⟩ 3.0),
          .receive 0, .close, .relay 1] = some a ∧
      a.account.SentOnce ∧ a.account.submitted = [⟨7⟩] ∧ a.account.withdrawn = [⟨9⟩] ∧
      a.RoutesResults := by
  generalize hrun : (opened ⟨1, none⟩).deals? _ = run
  have hnotes : run.map (fun a => (a.account.sent.map fun entry => entry.2.id,
      a.account.submitted, a.account.withdrawn)) = some ([⟨7⟩, ⟨9⟩], [⟨7⟩], [⟨9⟩]) := by
    subst hrun
    rfl
  obtain ⟨a, rfl, hnotes⟩ := Option.map_eq_some_iff.mp hnotes
  obtain ⟨hsent, hsubmitted, hwithdrawn⟩ : _ ∧ _ ∧ _ := by simpa using hnotes
  have honce : a.account.SentOnce := by
    rw [Account.SentOnce, hsent]
    decide
  exact ⟨a, rfl, honce, hsubmitted, hwithdrawn, deals?_routesResults hrun honce⟩

end Audited

end TaskFarm
