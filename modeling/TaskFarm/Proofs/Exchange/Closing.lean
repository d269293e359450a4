import TaskFarm.Proofs.Exchange.Turns

/-!
# Closing an exchange

A closed exchange takes on no further tasks: a relay that takes one drops it and ends.  What is in
the queue can still be fetched; then every fetch learns that nothing comes any more, and does so
without waiting for the clock.

The exchange may be closed before its queue is.  What matters then is that turns are taken in order:
when a fetch whose time is over finds the queue empty, no relay is about to put a task into it.
-/

namespace TaskFarm

open Exchange

variable {capacity : Nat} {journal journal' : Journal} {x x' : Exchange} {s : SessionId}
  {task : Task} {party : Party} {d : Deal} {now : Nat} {f : PendingFetch}

namespace Exchange

/-! ## What a deal can do to a closed exchange -/

/-- No relay of a closed exchange takes a task in hand. -/
theorem Conveys.holding_of_closed (h : Conveys journal x d journal' x') (hclosed : x.closed = true)
    (hholding : (x'.outlet s).relay = .holding task) : (x.outlet s).relay = .holding task := by
  have hreplaced : ∀ {s' : SessionId} {o : Outlet}, x'.outlet = Function.update x.outlet s' o →
      (o.relay = .holding task → (x.outlet s').relay = .holding task) →
      (x.outlet s).relay = .holding task := by
    intro s' o houtlets hrelay
    rw [houtlets] at hholding
    by_cases he : s = s'
    · subst he
      rw [Function.update_self] at hholding
      exact hrelay hholding
    · rwa [Function.update_of_ne he] at hholding
  cases h with
  | rests _ houtlets => rwa [houtlets] at hholding
  | offers _ _ houtlets => exact hreplaced houtlets id
  | resumes _ _ houtlets => exact hreplaced houtlets id
  | withdraws _ houtlets => exact hreplaced houtlets id
  | takes _ _ hopen _ _ => cases hopen.symm.trans hclosed
  | ends _ _ _ houtlets => exact hreplaced houtlets (by simp)
  | waits _ _ houtlets => rwa [houtlets] at hholding
  | puts _ _ houtlets => exact hreplaced houtlets (by simp)
  | drops _ _ houtlets => exact hreplaced houtlets (by simp)
  | fetches _ _ houtlets => rwa [houtlets] at hholding

/-- Only a task that a relay has in hand gets into the queue. -/
theorem Conveys.queued (h : Conveys journal x d journal' x') :
    journal'.queued = journal.queued ∨ ∃ s task, (x.outlet s).relay = .holding task ∧
      journal'.queued = journal.queued ++ [(s, task)] := by
  cases h with
  | @offers _ _ _ _ sending => cases sending <;> exact .inl rfl
  | @resumes _ _ _ sending => cases sending <;> exact .inl rfl
  | puts hrelay _ _ => exact .inr ⟨_, _, hrelay, rfl⟩
  | rests | withdraws | takes | ends | waits | drops | fetches => exact .inl rfl

theorem Conveys.queue_closed (h : Conveys journal x d journal' x')
    (hclosed : x.queue.closed = true) : x'.queue.closed = true := by
  cases h with
  | rests hqueue _ =>
      rcases hqueue with hqueue | hqueue
      · rwa [hqueue]
      · rw [hqueue]
        rfl
  | offers _ hqueue _ => rwa [hqueue]
  | resumes _ hqueue _ => rwa [hqueue]
  | withdraws hqueue _ => rwa [hqueue]
  | takes _ _ _ hqueue _ => rwa [hqueue]
  | ends _ _ hqueue _ => rwa [hqueue]
  | waits _ hattempt _ => rwa [Channel.attempt?_closed hattempt]
  | puts _ hattempt _ => rwa [Channel.attempt?_closed hattempt]
  | drops _ hattempt _ => rwa [Channel.attempt?_closed hattempt]
  | fetches hqueue htake _ =>
      rw [(Channel.take?_some htake).2.2]
      rcases hqueue with rfl | rfl
      · exact hclosed
      · rfl

/-! ## Nothing comes any more -/

/-- The exchange is closed, its queue is empty, and no task can get into it. -/
structure Over (x : Exchange) : Prop where
  closed : x.closed = true
  empty : x.queue.buffer = []
  done : x.queue.closed = true ∨ ∀ s task, (x.outlet s).relay ≠ .holding task

theorem Over.conveys (h : x.Over) (hconveys : Conveys journal x d journal' x')
    (hqueues : journal.Queues capacity x) (hclosed : x'.closed = true) : x'.Over := by
  have hattempted : ∀ {s : SessionId} {task : Task} {sending : Sending},
      x.queue.attempt? s task = some (sending, x'.queue) → sending ≠ .accepted →
      x'.queue.buffer = [] := by
    intro s task sending hattempt hne
    rcases Channel.attempt?_cases hqueues.pendingOnce hattempt with
      ⟨-, -, -, hbuffer, -⟩ | ⟨-, ⟨-, -, hbuffer⟩ | ⟨u, rfl, -⟩⟩
    · rw [hbuffer, h.empty]
    · rw [hbuffer, h.empty]
    · exact absurd rfl hne
  constructor
  · exact hclosed
  · cases hconveys with
    | rests hqueue _ => rcases hqueue with hqueue | hqueue <;> exact hqueue ▸ h.empty
    | offers _ hqueue _ => exact hqueue ▸ h.empty
    | resumes _ hqueue _ => exact hqueue ▸ h.empty
    | withdraws hqueue _ => exact hqueue ▸ h.empty
    | takes _ _ _ hqueue _ => exact hqueue ▸ h.empty
    | ends _ _ hqueue _ => exact hqueue ▸ h.empty
    | waits _ hattempt _ => exact hattempted hattempt nofun
    | drops _ hattempt _ => exact hattempted hattempt nofun
    | @puts _ s held hrelay hattempt _ =>
        rcases h.done with hdone | hdone
        · rcases Channel.attempt?_cases hqueues.pendingOnce hattempt with
            ⟨hsending, -⟩ | ⟨-, ⟨hsending, -⟩ | ⟨u, -, hopen, -⟩⟩
          · cases hsending
          · cases hsending
          · cases hopen.symm.trans hdone
        · exact absurd hrelay (hdone s held)
    | @fetches _ _ _ _ queue hqueue htake _ =>
        have hnone : queue.buffer = [] := by
          rcases hqueue with rfl | rfl <;> exact h.empty
        rw [(Channel.take?_some htake).1] at hnone
        cases hnone
  · rcases h.done with hdone | hdone
    · exact .inl (hconveys.queue_closed hdone)
    · refine .inr fun s task hholding => hdone s task ?_
      exact hconveys.holding_of_closed h.closed hholding

/-! ## Answers to fetches -/

theorem emptyReply_cases (x : Exchange) :
    (x.closed = true ∧ x.emptyReply = .closed) ∨ (x.closed = false ∧ x.emptyReply = .nothing) := by
  unfold emptyReply
  split
  · next hclosed => exact .inl ⟨hclosed, rfl⟩
  · next hclosed => exact .inr ⟨Bool.eq_false_iff.mpr hclosed, rfl⟩

/-- A fetch that goes away without a task leaves the queue empty. -/
theorem FetchesAs.empty {reply : FetchReply} (h : FetchesAs x f now (some reply) x')
    (hnone : ∀ task, reply ≠ .task task) : reply = x.emptyReply ∧ x'.queue.buffer = [] := by
  rcases h.fetches.took with ⟨task, hreply, -⟩ | ⟨-, hbuffer⟩
  · exact absurd (Option.some.inj hreply) (hnone task)
  · cases h with
    | takes _ _ _ => exact absurd rfl (hnone _)
    | leaves _ hempty _ => exact ⟨rfl, hbuffer.trans hempty⟩

theorem FetchesAs.closed (h : FetchesAs x f now (some .closed) x') :
    x'.closed = true ∧ x'.queue.buffer = [] := by
  obtain ⟨hreply, hempty⟩ := h.empty nofun
  rcases x.emptyReply_cases with ⟨hclosed, -⟩ | ⟨-, hnothing⟩
  · exact ⟨h.fetches.closed_eq.trans hclosed, hempty⟩
  · cases hreply.trans hnothing

theorem FetchesAs.nothing (h : FetchesAs x f now (some .nothing) x') : x'.closed = false := by
  obtain ⟨hreply, -⟩ := h.empty nofun
  rcases x.emptyReply_cases with ⟨-, hclosed⟩ | ⟨hopen, -⟩
  · cases hreply.trans hclosed
  · exact h.fetches.closed_eq.trans hopen

/-- A fetch that learns that the exchange is closed is right: nothing comes any more. -/
theorem FetchesAs.drained (h : FetchesAs x f now (some .closed) x') (horderly : x.Orderly now)
    (hf : x.fetchOf? party = some f) (hqueues : journal.Queues capacity x)
    (hcapacity : 0 < capacity) : x'.Over := by
  obtain ⟨hclosed', hempty'⟩ := h.closed
  obtain ⟨hreply, -⟩ := h.empty nofun
  have hclosed : x.closed = true := h.fetches.closed_eq.symm.trans hclosed'
  refine ⟨hclosed', hempty', ?_⟩
  have hleaves : ∃ queue, x' = { x with queue }.leaveLine f.party ∧ x.queue.buffer = [] ∧
      (queue = x.closeQueueIfClosed.queue ∨
        queue = x.queue ∧ ∃ deadline ≤ now, f.stage = .polling deadline) := by
    generalize he : some FetchReply.closed = reply at h
    cases h with
    | takes _ _ _ => cases he
    | leaves _ hempty hqueue => exact ⟨_, rfl, hempty, hqueue⟩
    | polls => cases he
    | requeues => cases he
  obtain ⟨queue, rfl, hempty, hqueue⟩ := hleaves
  rcases hqueue with rfl | ⟨rfl, deadline, hover, hstage⟩
  · rcases x.closeQueueIfClosed_cases with ⟨-, hqueue⟩ | ⟨hopen, -⟩
    · left
      change x.closeQueueIfClosed.queue.closed = true
      rw [hqueue]
      rfl
    · cases hopen.symm.trans hclosed
  · -- time is over, so no place of the empty queue is reserved, and nobody waits for one
    rcases (horderly.polls f (fetchOf?_some hf).1 deadline hstage).2 with hearly | hgranted
    · exact absurd hearly (Nat.not_lt_of_le hover)
    · by_cases hopen : x.queue.closed = true
      · exact .inl hopen
      · refine .inr fun s task hholding => ?_
        have hpending := horderly.held s task hholding
        rw [Channel.pending, hgranted, List.nil_append] at hpending
        have hfull := hqueues.waits (Bool.eq_false_iff.mpr hopen) (List.ne_nil_of_mem hpending)
        rw [hqueues.capacity_eq, Channel.occupied, hempty, hgranted] at hfull
        exact absurd hcapacity (Nat.not_lt_of_le hfull)

/-! ## The line of a closed exchange -/

theorem fetchOf?_head {rest : List PendingFetch} (hline : x.line = f :: rest) :
    x.fetchOf? f.party = some f := by
  simp [fetchOf?, hline]

theorem takeTask?_cons {tasks : List Task} (hbuffer : x.queue.buffer = task :: tasks)
    (party : Party) :
    ∃ x', x.takeTask? party = some (.task task, x') ∧ x'.queue.buffer = tasks := by
  refine ⟨_, by simp [takeTask?, Channel.take?, hbuffer]; rfl, ?_⟩
  exact Channel.grant_buffer _

/-- The first in line gets the oldest task. -/
theorem fetchStep?_head {rest : List PendingFetch} {tasks : List Task}
    (hline : x.line = f :: rest) (hbuffer : x.queue.buffer = task :: tasks) (now : Nat) :
    ∃ x', x.fetchStep? f.party now = some (some (.task task), x') ∧ x'.queue.buffer = tasks := by
  have hfirst : x.isFirst f.party = true := isFirst_iff.mpr ⟨f, rest, hline, rfl⟩
  have hclosing : x.closeQueueIfClosed.queue.buffer = task :: tasks := by
    obtain ⟨queue, heq, hsame, -, -⟩ := x.closeQueueIfClosed_eq
    rw [heq]
    exact hsame.trans hbuffer
  obtain ⟨next, htake, hnext⟩ := takeTask?_cons hbuffer f.party
  obtain ⟨next', htake', hnext'⟩ := takeTask?_cons hclosing f.party
  cases hstage : f.stage with
  | inLine =>
      exact ⟨next', by simp [fetchStep?, fetchOf?_head hline, hstage, hfirst, beginTurn, htake',
        answered], hnext'⟩
  | polling deadline =>
      exact ⟨next, by simp [fetchStep?, fetchOf?_head hline, hstage, htake, answered], hnext⟩
  | closing =>
      exact ⟨next', by simp [fetchStep?, fetchOf?_head hline, hstage, hfirst, htake', answered],
        hnext'⟩

/-- The first in line of a closed exchange does not wait. -/
theorem fetchStep?_head_ne_none {rest : List PendingFetch} (hline : x.line = f :: rest)
    (hclosed : x.closed = true) (now : Nat) : x.fetchStep? f.party now ≠ none := by
  have hfirst : x.isFirst f.party = true := isFirst_iff.mpr ⟨f, rest, hline, rfl⟩
  simp only [fetchStep?, fetchOf?_head hline, Option.bind_some]
  cases f.stage with
  | inLine => simp [hfirst]
  | polling deadline =>
      simp only [hclosed, if_true]
      split
      · nofun
      · split
        · nofun
        · nofun
  | closing => simp [hfirst]

/-- The steps that the fetches of a closed exchange still make: one that closes the queue is
answered next, and every other one may have to get in line for that first. -/
def lineWork (x : Exchange) : Nat :=
  x.line.length + x.line.countP fun f => f.stage != .closing

theorem lineWithout_perm (honce : (x.line.map PendingFetch.party).Nodup) (hmem : f ∈ x.line) :
    x.line.Perm (f :: x.lineWithout f.party) := by
  have hnodup := honce.of_map
  have habsent : f ∉ x.lineWithout f.party := fun hf => (mem_lineWithout.mp hf).2 rfl
  refine (List.perm_ext_iff_of_nodup hnodup
    (List.nodup_cons.mpr ⟨habsent, hnodup.filter _⟩)).mpr fun g => ?_
  rw [List.mem_cons, mem_lineWithout]
  constructor
  · intro hg
    by_cases he : g.party = f.party
    · exact .inl (List.inj_on_of_nodup_map honce hg hmem he)
    · exact .inr ⟨hg, he⟩
  · rintro (rfl | ⟨hg, -⟩)
    · exact hmem
    · exact hg

/-- Each step of a fetch brings the fetches of a closed exchange nearer to their answers. -/
theorem FetchesAs.lineWork_lt {reply : Option FetchReply} (h : FetchesAs x f now reply x')
    (hmem : f ∈ x.line) (honce : (x.line.map PendingFetch.party).Nodup)
    (hclosed : x.closed = true) : x'.lineWork < x.lineWork := by
  have hperm := lineWithout_perm honce hmem
  have hlength := hperm.length_eq
  have hcount := hperm.countP_eq fun g => g.stage != .closing
  rw [List.length_cons] at hlength
  rw [List.countP_cons] at hcount
  have hleft : x'.line = x.lineWithout f.party → x'.lineWork < x.lineWork := by
    intro hline
    rw [lineWork, lineWork, hline]
    omega
  cases h with
  | takes _ _ _ => exact hleft rfl
  | leaves _ _ _ => exact hleft rfl
  | polls _ hopen _ _ => cases hopen.symm.trans hclosed
  | requeues _ hstage =>
      have hstays : (f.stage != .closing) = true := by simpa using hstage
      rw [hstays, if_pos rfl] at hcount
      simp only [lineWork, requeue, List.length_append, List.countP_append, List.length_singleton,
        List.countP_singleton]
      simp only [bne_self_eq_false, Bool.false_eq_true, if_false]
      omega

end Exchange

/-! ## A closed exchange over time -/

theorem Audited.noteSent_registered (a : Audited) (s : SessionId) (task? : Option Task)
    (sending : Sending) :
    (a.noteSent s task? sending).account.registered = a.account.registered := by
  cases sending <;> rfl

theorem Audited.noteFetched_registered (a : Audited) (reply : Option FetchReply) :
    (a.noteFetched reply).account.registered = a.account.registered := by
  unfold noteFetched
  split <;> rfl

theorem Audited.noteReceived_registered (a : Audited) (s : SessionId) (received : Received) :
    (a.noteReceived s received).account.registered = a.account.registered := by
  cases received <;> rfl

theorem Audited.registered_deal? {a b : Audited} (h : a.deal? d = some b) :
    b.account.registered = a.account.registered ∨
      ∃ s task, a.exchange.relay? s = some .idle ∧
        b.exchange.relay? s = some (.holding task) := by
  cases d with
  | openSession | withdrawSend | dropTasks | startFetch | leaveLine | dropResults | close =>
      rw [← Option.some.inj h]
      exact .inl rfl
  | send s party task =>
      rw [← Option.some.inj h]
      exact .inl (noteSent_registered _ _ _ _)
  | resumeSend s party =>
      obtain ⟨⟨sending, next⟩, -, rfl⟩ := Option.map_eq_some_iff.mp h
      exact .inl (noteSent_registered _ _ _ _)
  | relay s =>
      obtain ⟨next, -, rfl⟩ := Option.map_eq_some_iff.mp h
      rw [noteRelay_exchange]
      unfold noteRelay
      split
      · next task hidle hholding => exact .inr ⟨s, task, hidle, hholding⟩
      · exact .inl rfl
      · split <;> exact .inl rfl
      · exact .inl rfl
  | fetch party now =>
      obtain ⟨⟨reply, next⟩, -, rfl⟩ := Option.map_eq_some_iff.mp h
      exact .inl (noteFetched_registered _ _)
  | submit party r =>
      rw [← Option.some.inj h]
      left
      unfold noteSubmitted
      split <;> rfl
  | resumeSubmit s party id =>
      obtain ⟨_, -, rfl⟩ := Option.map_eq_some_iff.mp h
      exact .inl rfl
  | receive s =>
      rw [← Option.some.inj h]
      exact .inl (noteReceived_registered _ _ _)

namespace Journaled

variable {j j' j'' : Journaled}

/-- What can have become of a closed exchange: no route was noted, and nothing got into the queue
but tasks that relays had in hand. -/
structure ClosedFrom (j j' : Journaled) : Prop where
  closed : j'.exchange.closed = true
  registered_eq : j'.account.registered = j.account.registered
  routes : j'.exchange.routes.Sublist j.exchange.routes
  holding : ∀ s task, j'.exchange.relay? s = some (.holding task) →
    j.exchange.relay? s = some (.holding task)
  queued : ∃ more, j'.journal.queued = j.journal.queued ++ more ∧
    ∀ s task, (s, task) ∈ more → j.exchange.relay? s = some (.holding task)

theorem closedFrom_self (hclosed : j.exchange.closed = true) : j.ClosedFrom j where
  closed := hclosed
  registered_eq := rfl
  routes := List.Sublist.refl _
  holding _ _ := id
  queued := ⟨[], by simp, nofun⟩

theorem ClosedFrom.deal (h : j.ClosedFrom j') (hdeal : j'.deal? d = some j'') :
    j.ClosedFrom j'' := by
  have hconveys := conveys_of_deal? hdeal
  have hframes := frames_deal? (exchange_of_deal? hdeal)
  have hclosed := hframes.closed h.closed
  have hroutes := hframes.routes h.closed
  have hholding : ∀ s task, j''.exchange.relay? s = some (.holding task) →
      j'.exchange.relay? s = some (.holding task) := fun s task hafter =>
    relay?_eq_holding.mpr (hconveys.holding_of_closed h.closed (relay?_eq_holding.mp hafter))
  constructor
  · exact hclosed
  · rcases Audited.registered_deal? (deal?_eq hdeal).1 with hsame | ⟨s, task, hidle, hafter⟩
    · exact hsame.trans h.registered_eq
    · cases hidle.symm.trans (hholding s task hafter)
  · exact hroutes.trans h.routes
  · exact fun s task hafter => h.holding s task (hholding s task hafter)
  · obtain ⟨more, hmore, hheld⟩ := h.queued
    rcases hconveys.queued with hsame | ⟨s, task, hrelay, hput⟩
    · exact ⟨more, hsame.trans hmore, hheld⟩
    · refine ⟨more ++ [(s, task)], by rw [hput, hmore, List.append_assoc], ?_⟩
      intro s' task' hmem
      rcases List.mem_append.mp hmem with hmem | hmem
      · exact hheld s' task' hmem
      · obtain ⟨rfl, rfl⟩ := Prod.mk.inj (List.mem_singleton.mp hmem)
        exact h.holding s' task' (relay?_eq_holding.mpr hrelay)

theorem ClosedFrom.deals {deals : List Deal} (h : j.ClosedFrom j')
    (hdeals : j'.deals? deals = some j'') : j.ClosedFrom j'' := by
  induction deals generalizing j' with
  | nil =>
      cases hdeals
      exact h
  | cons d rest ih =>
      obtain ⟨next, hdeal, hrest⟩ := Option.bind_eq_some_iff.mp hdeals
      exact ih (h.deal hdeal) hrest

theorem over_deals? {deals : List Deal} (h : j.exchange.Over)
    (hmatches : j.journal.Matches capacity j.exchange) (hdeals : j.deals? deals = some j') :
    j'.exchange.Over := by
  induction deals generalizing j with
  | nil =>
      cases hdeals
      exact h
  | cons d rest ih =>
      obtain ⟨next, hdeal, hrest⟩ := Option.bind_eq_some_iff.mp hdeals
      have hconveys := conveys_of_deal? hdeal
      have hclosed := (frames_deal? (exchange_of_deal? hdeal)).closed h.closed
      exact ih (h.conveys hconveys hmatches.queues hclosed) (hconveys.matches hmatches) hrest

end Journaled

namespace Clocked

variable {c c' : Clocked} {t : Turn} {settings : QueueSettings}

/-- A turn is made of deals. -/
theorem deals_of_turn? (h : c.turn? t = some c') :
    ∃ deals, c.deals? deals = some c'.toJournaled := by
  have hone : ∀ {d : Deal} {j : Journaled}, c.deal? d = some j → c.deals? [d] = some j := by
    intro d j hdeal
    simp [Journaled.deals?, hdeal]
  rcases turn?_cases h with ⟨d, -, -, hdeal, -⟩ | ⟨s, -, hrelay, -⟩ |
    ⟨party, reply, -, -, hdeal, -⟩ | ⟨moment, -, -, -, rfl⟩
  · exact ⟨[d], hone hdeal⟩
  · obtain ⟨next, hdeal, ⟨hlast, -⟩ | ⟨rfl, -⟩⟩ := Journaled.relayTurn?_cases hrelay
    · exact ⟨[.relay s, .relay s], by simp [Journaled.deals?, hdeal, hlast]⟩
    · exact ⟨[.relay s], hone hdeal⟩
  · exact ⟨[.fetch party c.now], hone hdeal⟩
  · exact ⟨[], rfl⟩

theorem closedFrom_turns? {turns : List Turn} {j : Journaled} (h : j.ClosedFrom c.toJournaled)
    (hturns : c.turns? turns = some c') : j.ClosedFrom c'.toJournaled := by
  induction turns generalizing c with
  | nil =>
      cases hturns
      exact h
  | cons t rest ih =>
      obtain ⟨next, hturn, hrest⟩ := Option.bind_eq_some_iff.mp hturns
      obtain ⟨deals, hdeals⟩ := deals_of_turn? hturn
      exact ih (h.deals hdeals) hrest

/-- After an answer that the exchange is closed no fetch has been given a task. -/
structure Final (c : Clocked) : Prop where
  answers : c.answers.Pairwise fun earlier later =>
    earlier.2 = .closed → ∀ task, later.2 ≠ .task task
  drained : ∀ party, (party, .closed) ∈ c.answers → c.exchange.Over

theorem Final.turn (h : c.Final) (hinOrder : c.InOrder capacity) (hcapacity : 0 < capacity)
    (hturn : c.turn? t = some c') : c'.Final := by
  have hover : c.exchange.Over → c'.exchange.Over := by
    intro hover
    obtain ⟨deals, hdeals⟩ := deals_of_turn? hturn
    exact Journaled.over_deals? hover hinOrder.agrees hdeals
  have hsame : c'.answers = c.answers → c'.Final := by
    intro hanswers
    constructor
    · rw [hanswers]
      exact h.answers
    · intro party hparty
      rw [hanswers] at hparty
      exact hover (h.drained party hparty)
  rcases turn?_cases hturn with ⟨d, -, -, -, -, hanswers⟩ | ⟨s, -, -, -, hanswers⟩ |
    ⟨party, reply, -, hfetch, -, -, hanswers⟩ | ⟨moment, -, -, -, rfl⟩
  · exact hsame hanswers
  · exact hsame hanswers
  · obtain ⟨f, hf, -, hfetches⟩ := fetchStep?_cases hfetch
    cases reply with
    | none => exact hsame (by simpa using hanswers)
    | some reply =>
        have hlast : c'.answers = c.answers ++ [(party, reply)] := hanswers
        constructor
        · rw [hlast]
          refine List.pairwise_append.mpr ⟨h.answers, List.pairwise_singleton _ _, ?_⟩
          rintro ⟨earlier, _⟩ hearlier later hlater rfl task htask
          rw [List.mem_singleton.mp hlater] at htask
          obtain rfl : reply = .task task := htask
          have hempty := (h.drained earlier hearlier).empty
          rcases hfetches.fetches.took with ⟨taken, -, hbuffer⟩ | ⟨hnone, -⟩
          · cases hempty.symm.trans hbuffer
          · exact hnone task rfl
        · intro asker hasker
          rw [hlast, List.mem_append, List.mem_singleton] at hasker
          rcases hasker with hasker | hasker
          · exact hover (h.drained asker hasker)
          · obtain rfl : FetchReply.closed = reply := (Prod.mk.inj hasker).2
            exact hfetches.drained hinOrder.orderly hf hinOrder.agrees.queues hcapacity
  · exact hsame rfl

theorem Final.turns {turns : List Turn} (h : c.Final) (hinOrder : c.InOrder capacity)
    (hcapacity : 0 < capacity) (hturns : c.turns? turns = some c') : c'.Final := by
  induction turns generalizing c with
  | nil =>
      cases hturns
      exact h
  | cons t rest ih =>
      obtain ⟨next, hturn, hrest⟩ := Option.bind_eq_some_iff.mp hturns
      exact ih (h.turn hinOrder hcapacity hturn) (hinOrder.turn hturn) hrest

/-! ## The law of closing -/

/-- What closing an exchange means, whatever turns have been taken. -/
structure ClosesCleanly (c : Clocked) : Prop where
  /-- Of the tasks that relays take from a closed exchange none is registered or queued. -/
  closedFrom : c.exchange.closed = true → ∀ turns c', c.turns? turns = some c' →
    c.toJournaled.ClosedFrom c'.toJournaled
  /-- The first in line gets the oldest task, be the exchange closed or not. -/
  fetchable : ∀ f rest task tasks, c.exchange.line = f :: rest →
    c.exchange.queue.buffer = task :: tasks →
    ∃ c', c.turn? (.fetch f.party) = some c' ∧
      c'.answers = c.answers ++ [(f.party, .task task)] ∧ c'.exchange.queue.buffer = tasks
  inOrder : c.journal.fetched.map Prod.snd ++ c.exchange.queue.buffer =
    c.journal.queued.map Prod.snd
  /-- A fetch learns that the exchange is closed only if it is, and its queue is empty. -/
  closed : ∀ party c', c.turn? (.fetch party) = some c' →
    c'.answers = c.answers ++ [(party, .closed)] →
    c'.exchange.closed = true ∧ c'.exchange.queue.buffer = []
  /-- Once a fetch has learnt that, no fetch is given a task. -/
  final : c.answers.Pairwise fun earlier later =>
    earlier.2 = .closed → ∀ task, later.2 ≠ .task task
  nothing : ∀ party c', c.turn? (.fetch party) = some c' →
    c'.answers = c.answers ++ [(party, .nothing)] → c'.exchange.closed = false
  /-- Every fetch of a closed exchange is answered before time passes, after a bounded number of
  steps. -/
  released : c.exchange.closed = true → c.isQuiet = true → c.exchange.line = []
  goesOn : c.exchange.closed = true → ∀ party c', c.turn? (.fetch party) = some c' →
    c'.exchange.lineWork < c.exchange.lineWork

theorem answer_of_turn? {reply : FetchReply} (hturn : c.turn? (.fetch party) = some c')
    (hanswers : c'.answers = c.answers ++ [(party, reply)]) :
    ∃ f, FetchesAs c.exchange f c.now (some reply) c'.exchange := by
  rcases turn?_cases hturn with ⟨_, he, -⟩ | ⟨_, he, -⟩ |
    ⟨party', answer, he, hfetch, -, -, hnoted⟩ | ⟨_, he, -⟩
  · cases he
  · cases he
  · obtain ⟨f, -, -, hfetches⟩ := fetchStep?_cases hfetch
    refine ⟨f, ?_⟩
    rw [hnoted] at hanswers
    have hsame := List.append_cancel_left hanswers
    cases answer with
    | none => cases hsame
    | some answer =>
        have hreply : answer = reply := (Prod.mk.inj (List.cons.inj hsame).1).2
        rwa [← hreply]
  · cases he

theorem turn?_fetch {reply : Option FetchReply}
    (hfetch : c.exchange.fetchStep? party c.now = some (reply, x)) :
    ∃ c', c.turn? (.fetch party) = some c' ∧ c'.exchange = x ∧
      c'.answers = c.answers ++ reply.toList.map fun reply => (party, reply) := by
  have hdeal : ∃ j, c.deal? (.fetch party c.now) = some j := by
    simp [Journaled.deal?, Audited.deal?, hfetch]
  obtain ⟨j, hdeal⟩ := hdeal
  have hexchange : x = j.exchange := by
    have hmoved := Journaled.exchange_of_deal? hdeal
    simpa [Exchange.deal?, hfetch] using hmoved
  refine ⟨{ c with toJournaled := j }.noteAnswer party reply, ?_, hexchange.symm, rfl⟩
  simp [turn?, hfetch, hdeal]

theorem closesCleanly_of_inOrder (hinOrder : c.InOrder capacity) (hfinal : c.Final) :
    c.ClosesCleanly := by
  constructor
  · exact fun hclosed turns c' => closedFrom_turns? (Journaled.closedFrom_self hclosed)
  · intro f rest task tasks hline hbuffer
    obtain ⟨x, hfetch, hleft⟩ := fetchStep?_head hline hbuffer c.now
    obtain ⟨c', hturn, rfl, hanswers⟩ := turn?_fetch hfetch
    exact ⟨c', hturn, hanswers, hleft⟩
  · exact hinOrder.agrees.queues.inOrder
  · intro party c' hturn hanswers
    obtain ⟨f, hfetches⟩ := answer_of_turn? hturn hanswers
    exact hfetches.closed
  · exact hfinal.answers
  · intro party c' hturn hanswers
    obtain ⟨f, hfetches⟩ := answer_of_turn? hturn hanswers
    exact hfetches.nothing
  · intro hclosed hquiet
    cases hline : c.exchange.line with
    | nil => rfl
    | cons f rest =>
        have hwaits := (quiet_of_isQuiet hquiet).2 f (hline ▸ List.mem_cons_self)
        exact absurd hwaits (fetchStep?_head_ne_none hline hclosed c.now)
  · intro hclosed party c' hturn
    rcases turn?_cases hturn with ⟨_, he, -⟩ | ⟨_, he, -⟩ | ⟨party', reply, he, hfetch, -⟩ |
      ⟨_, he, -⟩
    · cases he
    · cases he
    · obtain ⟨f, hf, -, hfetches⟩ := fetchStep?_cases hfetch
      exact hfetches.lineWork_lt (fetchOf?_some hf).1 hinOrder.orderly.lineOnce hclosed
    · cases he

/-- Whatever turns are taken at an exchange, it closes cleanly. -/
theorem turns?_closesCleanly {turns : List Turn}
    (hturns : (opened settings).turns? turns = some c) : c.ClosesCleanly := by
  have hopened := inOrder_opened settings
  have hcapacity : 0 < max settings.capacity 1 := by omega
  have hfinal : (opened settings).Final := ⟨List.Pairwise.nil, nofun⟩
  exact closesCleanly_of_inOrder (hopened.turns hturns) (hfinal.turns hopened hcapacity hturns)

/-- One fetch waits for a task at the queue and another one behind it when the exchange is closed.
Both are answered, the task of a session that sends later is dropped, and then time can pass. -/
theorem turns?_closesCleanly_parked :
    ∃ c, (opened ⟨1, some 5⟩).turns?
        [.outside .openSession, .outside (.startFetch 5), .fetch 5, .wait 3,
          .outside (.startFetch 6), .outside .close,
          .outside (.send 0 7 (.make ⟨7⟩ .add 1.0 1.0 0)), .relay 0, .fetch 6, .fetch 5,
          .fetch 6, .fetch 5, .wait 4] = some c ∧
      c.exchange.closed = true ∧ c.answers = [(6, .closed), (5, .closed)] ∧ c.ClosesCleanly := by
  generalize hrun : (opened ⟨1, some 5⟩).turns? _ = run
  have hanswers : ∃ c, run = some c ∧ c.exchange.closed = true ∧
      c.answers = [(6, .closed), (5, .closed)] := by
    subst hrun
    exact ⟨_, rfl, rfl, rfl⟩
  obtain ⟨c, rfl, hclosed, hanswers⟩ := hanswers
  exact ⟨c, rfl, hclosed, hanswers, turns?_closesCleanly hrun⟩

end Clocked

end TaskFarm
