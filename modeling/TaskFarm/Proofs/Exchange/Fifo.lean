import TaskFarm.Proofs.Exchange.Journal

/-!
# Tasks pass through an exchange in order

The queue and the channel of each session are first-in first-out, and a relay has at most one task
in hand between them.  So the journal can be read off: the tasks that were put into the queue are
those fetched followed by those still there, and the tasks that a session sent are those put into
the queue, the one in its relay's hand and the one in its channel.  Ids play no part in this.
-/

namespace TaskFarm

open Exchange

variable {capacity : Nat} {j j' : Journal} {x x' : Exchange} {s : SessionId} {o : Outlet}
  {party : Party} {task : Task} {sending : Sending} {tasks : Channel Party Task} {d : Deal}

/-! ## The outlet of one session -/

/-- The journal agrees with the outlet of a session. -/
structure Journal.Tracks (j : Journal) (s : SessionId) (o : Outlet) : Prop where
  capacity_eq : o.tasks.capacity = 1
  fits : o.tasks.Fits
  sent : o.relay ≠ .ended →
    tasksOf s j.queued ++ o.held ++ o.tasks.buffer = tasksOf s j.sent
  /-- A relay that has ended may have lost what was sent last. -/
  queued : tasksOf s j.queued <+: tasksOf s j.sent
  /-- Senders are let in in the order in which they came; some of them may have left. -/
  begun : (tasksOf s j.sent ++ o.tasks.pending.map Prod.snd).Sublist (tasksOf s j.begun)

namespace Journal

theorem Tracks.congr (h : j.Tracks s o) (hbegun : tasksOf s j'.begun = tasksOf s j.begun)
    (hsent : tasksOf s j'.sent = tasksOf s j.sent)
    (hqueued : tasksOf s j'.queued = tasksOf s j.queued) : j'.Tracks s o := by
  constructor
  · exact h.capacity_eq
  · exact h.fits
  · rw [hsent, hqueued]
    exact h.sent
  · rw [hsent, hqueued]
    exact h.queued
  · rw [hbegun, hsent]
    exact h.begun

/-- The channel lets in a task for which it has room, and whose sender came before the others. -/
theorem Tracks.lets_in (h : j.Tracks s o) {begun : List (SessionId × Task)}
    (hcapacity : tasks.capacity = o.tasks.capacity) (hfits : tasks.Fits)
    (hbuffer : tasks.buffer = o.tasks.buffer ++ [task])
    (hbegun : (tasksOf s j.sent ++ task :: tasks.pending.map Prod.snd).Sublist (tasksOf s begun)) :
    ({ j with begun, sent := j.sent ++ [(s, task)] } : Journal).Tracks s { o with tasks } := by
  constructor
  · exact hcapacity.trans h.capacity_eq
  · exact hfits
  · intro hrelay
    have hsent := h.sent hrelay
    change tasksOf s j.queued ++ o.held ++ tasks.buffer = tasksOf s (j.sent ++ [(s, task)])
    rw [hbuffer, ← List.append_assoc, hsent]
    simp
  · change tasksOf s j.queued <+: tasksOf s (j.sent ++ [(s, task)])
    rw [tasksOf_append]
    exact h.queued.trans (List.prefix_append _ _)
  · simpa using hbegun

/-- The channel lets nobody in. -/
theorem Tracks.keeps_out (h : j.Tracks s o) {begun : List (SessionId × Task)}
    (hcapacity : tasks.capacity = o.tasks.capacity) (hfits : tasks.Fits)
    (hbuffer : tasks.buffer = o.tasks.buffer)
    (hbegun : (tasksOf s j.sent ++ tasks.pending.map Prod.snd).Sublist (tasksOf s begun)) :
    ({ j with begun } : Journal).Tracks s { o with tasks } := by
  constructor
  · exact hcapacity.trans h.capacity_eq
  · exact hfits
  · intro hrelay
    change tasksOf s j.queued ++ o.held ++ tasks.buffer = tasksOf s j.sent
    rw [hbuffer]
    exact h.sent hrelay
  · exact h.queued
  · exact hbegun

theorem Tracks.offer (h : j.Tracks s o) (hoffer : o.tasks.offer party task = (sending, tasks)) :
    (j.noteSend s task sending).Tracks s { o with tasks } := by
  obtain ⟨hcapacity, hfits, -⟩ := Channel.offer_places hoffer
  rcases Channel.offer_cases hoffer with ⟨rfl, -, rfl⟩ | ⟨rfl, -, rfl⟩ | ⟨rfl, -, rfl⟩
  · exact h
  · -- there is a place only if nobody waits and no place is reserved
    obtain ⟨hwaiting, hfree⟩ := Channel.hasRoom_of_offer hoffer
    rw [h.capacity_eq, Channel.occupied] at hfree
    have hgranted : o.tasks.granted = [] := List.length_eq_zero_iff.mp (by omega)
    have hpending : o.tasks.pending = [] := by simp [Channel.pending, hwaiting, hgranted]
    refine h.lets_in hcapacity (hfits h.fits) rfl ?_
    have hbegun := h.begun
    rw [hpending, List.map_nil, List.append_nil] at hbegun
    change (tasksOf s j.sent ++ task :: o.tasks.pending.map Prod.snd).Sublist _
    rw [hpending]
    simpa using hbegun.append (List.Sublist.refl [task])
  · refine h.keeps_out hcapacity (hfits h.fits) rfl ?_
    simpa [Channel.pending] using h.begun.append (List.Sublist.refl [task])

theorem Tracks.withdraw (h : j.Tracks s o) (party : Party) :
    j.Tracks s { o with tasks := o.tasks.withdraw party } := by
  obtain ⟨hbuffer, hpending, -⟩ := o.tasks.withdraw_eq party
  obtain ⟨hcapacity, hfits⟩ := o.tasks.withdraw_places party
  refine h.keeps_out hcapacity (hfits h.fits) hbuffer ?_
  rw [hpending]
  exact (((Channel.others_sublist party _).map _).append_left _).trans h.begun

theorem Tracks.resume (h : j.Tracks s o)
    (hresume : o.tasks.resume? party = some (sending, tasks)) :
    (j.noteResume s (o.tasks.reserved? party) sending).Tracks s { o with tasks } := by
  obtain ⟨hcapacity, hfits, -⟩ := Channel.resume?_places hresume
  rcases Channel.resume?_cases hresume with ⟨rfl, -, rfl⟩ | ⟨v, rfl, -, hreserved, hmem, rfl⟩
  · exact h.withdraw party
  · -- the one place of the channel is the one reserved for this sender
    have hone := h.fits
    rw [Channel.Fits, Channel.occupied, h.capacity_eq] at hone
    have hgranted : o.tasks.granted = [(party, v)] := by
      obtain ⟨pair, hpair⟩ := List.length_eq_one_iff.mp (Nat.le_antisymm
        (Nat.le_of_add_left_le hone) (List.length_pos_of_mem hmem))
      rw [hpair, List.mem_singleton] at hmem
      rw [hpair, hmem]
    have hgone : Channel.others party o.tasks.granted = [] := by
      simp [hgranted, Channel.others]
    rw [hreserved]
    refine h.lets_in hcapacity (hfits h.fits) rfl ?_
    have hbegun := h.begun
    rw [Channel.pending, hgranted] at hbegun
    simpa [Channel.pending, hgone] using hbegun

theorem Tracks.takes (h : j.Tracks s o) (hrelay : o.relay = .idle)
    (htake : o.tasks.take? = some (task, tasks)) : j.Tracks s ⟨tasks, .holding task⟩ := by
  obtain ⟨hbuffer, hpending, -⟩ := Channel.take?_some htake
  obtain ⟨hcapacity, hfits, -⟩ := Channel.take?_places htake
  constructor
  · exact hcapacity.trans h.capacity_eq
  · exact hfits h.fits
  · intro _
    have hsent := h.sent (by simp [hrelay])
    simpa [Outlet.held, hrelay, hbuffer] using hsent
  · exact h.queued
  · rw [hpending]
    exact h.begun

theorem Tracks.puts (h : j.Tracks s o) (hrelay : o.relay = .holding task) :
    ({ j with queued := j.queued ++ [(s, task)] } : Journal).Tracks s ⟨o.tasks, .idle⟩ := by
  have hsent := h.sent (by simp [hrelay])
  simp only [Outlet.held, hrelay] at hsent
  constructor
  · exact h.capacity_eq
  · exact h.fits
  · intro _
    simpa [Outlet.held] using hsent
  · change tasksOf s (j.queued ++ [(s, task)]) <+: tasksOf s j.sent
    rw [tasksOf_append, tasksOf_self, ← hsent]
    exact List.prefix_append _ _
  · exact h.begun

/-- A relay ends, and the tasks that it has not put into the queue are lost. -/
theorem Tracks.ends (h : j.Tracks s o)
    (htasks : tasks = o.tasks ∨ ∃ task, o.tasks.take? = some (task, tasks)) :
    j.Tracks s ⟨tasks.discard, .ended⟩ := by
  have hkept : tasks.capacity = o.tasks.capacity ∧ tasks.Fits ∧
      tasks.pending = o.tasks.pending := by
    rcases htasks with rfl | ⟨task, htake⟩
    · exact ⟨rfl, h.fits, rfl⟩
    · obtain ⟨hcapacity, hfits, -⟩ := Channel.take?_places htake
      exact ⟨hcapacity, hfits h.fits, (Channel.take?_some htake).2.1⟩
  obtain ⟨hcapacity, hfits, hpending⟩ := hkept
  constructor
  · exact hcapacity.trans h.capacity_eq
  · simp only [Channel.Fits, Channel.occupied, Channel.discard, List.length_nil] at hfits ⊢
    omega
  · exact fun hrelay => absurd rfl hrelay
  · exact h.queued
  · change (tasksOf s j.sent ++ tasks.pending.map Prod.snd).Sublist _
    rw [hpending]
    exact h.begun

/-! What is noted for one session does not concern the others. -/

theorem Tracks.noteSend_ne (h : j.Tracks s o) {s' : SessionId} (hne : s' ≠ s) (task : Task)
    (sending : Sending) : (j.noteSend s' task sending).Tracks s o := by
  cases sending with
  | accepted =>
      apply h.congr
      · simp [noteSend, tasksOf_ne hne]
      · simp [noteSend, tasksOf_ne hne]
      · rfl
  | waiting => exact h.congr (by simp [noteSend, tasksOf_ne hne]) rfl rfl
  | refused => exact h

theorem Tracks.noteResume_ne (h : j.Tracks s o) {s' : SessionId} (hne : s' ≠ s)
    (task? : Option Task) (sending : Sending) : (j.noteResume s' task? sending).Tracks s o := by
  cases sending with
  | accepted =>
      cases task? with
      | none => exact h.congr rfl (by simp [noteResume]) rfl
      | some task => exact h.congr rfl (by simp [noteResume, tasksOf_ne hne]) rfl
  | waiting => exact h
  | refused => exact h

end Journal

/-! ## The queue -/

/-- The journal agrees with the queue of an exchange. -/
structure Journal.Queues (capacity : Nat) (j : Journal) (x : Exchange) : Prop where
  capacity_eq : x.queue.capacity = capacity
  fits : x.queue.Fits
  waits : x.queue.WaitsForRoom
  pendingOnce : (x.queue.pending.map Prod.fst).Nodup
  /-- Only relays that hold a task wait at the queue, each with its task. -/
  pending : ∀ s task, (s, task) ∈ x.queue.pending → (x.outlet s).relay = .holding task
  inOrder : j.fetched.map Prod.snd ++ x.queue.buffer = j.queued.map Prod.snd

namespace Journal

theorem Queues.not_pending (h : j.Queues capacity x) (hrelay : (x.outlet s).relay = .idle)
    (task : Task) : (s, task) ∉ x.queue.pending := by
  intro hpending
  have hholding := h.pending s task hpending
  simp [hrelay] at hholding

/-- The outlet of a session is replaced by one whose relay holds what waits at the queue. -/
theorem Queues.setOutlet (h : j.Queues capacity x) (hqueue : x'.queue = x.queue)
    (houtlets : x'.outlet = Function.update x.outlet s o)
    (hrelay : ∀ task, (s, task) ∈ x.queue.pending → o.relay = .holding task)
    (hfetched : j'.fetched = j.fetched) (hqueued : j'.queued = j.queued) :
    j'.Queues capacity x' := by
  constructor
  · rw [hqueue]
    exact h.capacity_eq
  · rw [hqueue]
    exact h.fits
  · rw [hqueue]
    exact h.waits
  · rw [hqueue]
    exact h.pendingOnce
  · intro s' task htask
    rw [hqueue] at htask
    rw [houtlets]
    by_cases he : s' = s
    · subst he
      rw [Function.update_self]
      exact hrelay task htask
    · rw [Function.update_of_ne he]
      exact h.pending s' task htask
  · rw [hqueue, hfetched, hqueued]
    exact h.inOrder

/-- Tasks that wait at the queue go on waiting when only the channel before their relay changes. -/
theorem Queues.setTasks (h : j.Queues capacity x) (hqueue : x'.queue = x.queue)
    (houtlets : x'.outlet = Function.update x.outlet s { x.outlet s with tasks })
    (hfetched : j'.fetched = j.fetched) (hqueued : j'.queued = j.queued) :
    j'.Queues capacity x' :=
  h.setOutlet hqueue houtlets (h.pending s) hfetched hqueued

theorem Queues.setIdle (h : j.Queues capacity x) (hrelay : (x.outlet s).relay = .idle)
    (hqueue : x'.queue = x.queue) (houtlets : x'.outlet = Function.update x.outlet s o) :
    j.Queues capacity x' :=
  h.setOutlet hqueue houtlets (fun task htask => absurd htask (h.not_pending hrelay task)) rfl rfl

theorem Queues.close (h : j.Queues capacity x) (hqueue : x'.queue = x.queue.close)
    (houtlets : x'.outlet = x.outlet) : j.Queues capacity x' := by
  constructor
  · rw [hqueue]
    exact h.capacity_eq
  · rw [hqueue]
    exact h.fits
  · rw [hqueue]
    exact nofun
  · rw [hqueue]
    exact h.pendingOnce
  · rw [hqueue, houtlets]
    exact h.pending
  · rw [hqueue]
    exact h.inOrder

theorem Queues.rests (h : j.Queues capacity x)
    (hqueue : x'.queue = x.queue ∨ x'.queue = x.queue.close) (houtlets : x'.outlet = x.outlet) :
    j.Queues capacity x' := by
  rcases hqueue with hqueue | hqueue
  · refine h.setOutlet (s := 0) hqueue ?_ (h.pending 0) rfl rfl
    rw [houtlets, Function.update_eq_self]
  · exact h.close hqueue houtlets

theorem Queues.waiting (h : j.Queues capacity x) (hrelay : (x.outlet s).relay = .holding task)
    (hattempt : x.queue.attempt? s task = some (.waiting, x'.queue))
    (houtlets : x'.outlet = x.outlet) : j.Queues capacity x' := by
  obtain ⟨hcapacity, hfits, hwaits⟩ := Channel.attempt?_places hattempt
  rcases Channel.attempt?_cases h.pendingOnce hattempt with
    ⟨-, -, hnew, hbuffer, hpending⟩ | ⟨-, ⟨hsending, -⟩ | ⟨u, hsending, -⟩⟩
  · constructor
    · exact hcapacity.trans h.capacity_eq
    · exact hfits h.fits
    · exact hwaits h.pendingOnce h.waits
    · have hperm : (x'.queue.pending.map Prod.fst).Perm (s :: x.queue.pending.map Prod.fst) := by
        simp [hpending]
      exact hperm.nodup_iff.mpr (List.nodup_cons.mpr ⟨hnew, h.pendingOnce⟩)
    · intro s' t ht
      rw [houtlets]
      rw [hpending, List.mem_append] at ht
      rcases ht with ht | ht
      · exact h.pending s' t ht
      · obtain ⟨rfl, rfl⟩ := Prod.mk.inj (List.mem_singleton.mp ht)
        exact hrelay
    · rw [hbuffer]
      exact h.inOrder
  · cases hsending
  · cases hsending

/-- A relay that puts its task in, or learns that the queue is closed, has nothing pending there. -/
theorem Queues.pending_of_others (h : j.Queues capacity x)
    (hpending : x'.queue.pending = Channel.others s x.queue.pending)
    (houtlets : x'.outlet = Function.update x.outlet s o) :
    (x'.queue.pending.map Prod.fst).Nodup ∧
      ∀ s task, (s, task) ∈ x'.queue.pending → (x'.outlet s).relay = .holding task := by
  rw [hpending, houtlets]
  have hsublist := Channel.others_sublist s x.queue.pending
  refine ⟨h.pendingOnce.sublist (hsublist.map _), ?_⟩
  intro s' t ht
  have hne : s' ≠ s := by
    rintro rfl
    exact Channel.not_mem_others s' _ (List.mem_map.mpr ⟨_, ht, rfl⟩)
  rw [Function.update_of_ne hne]
  exact h.pending s' t (hsublist.subset ht)

theorem Queues.puts (h : j.Queues capacity x) (hrelay : (x.outlet s).relay = .holding task)
    (hattempt : x.queue.attempt? s task = some (.accepted, x'.queue))
    (houtlets : x'.outlet = Function.update x.outlet s o) :
    ({ j with queued := j.queued ++ [(s, task)] } : Journal).Queues capacity x' := by
  obtain ⟨hcapacity, hfits, hwaits⟩ := Channel.attempt?_places hattempt
  rcases Channel.attempt?_cases h.pendingOnce hattempt with
    ⟨hsending, -⟩ | ⟨hpending, ⟨hsending, -⟩ | ⟨u, -, -, hu, hbuffer⟩⟩
  · cases hsending
  · cases hsending
  · -- what is put into a place reserved earlier is the task still in hand
    obtain rfl : u = task := by
      rcases hu with rfl | hu
      · rfl
      · have hholding := (h.pending s u hu).symm.trans hrelay
        exact Relay.holding.inj hholding
    obtain ⟨honce, hheld⟩ := h.pending_of_others hpending houtlets
    constructor
    · exact hcapacity.trans h.capacity_eq
    · exact hfits h.fits
    · exact hwaits h.pendingOnce h.waits
    · exact honce
    · exact hheld
    · rw [hbuffer, ← List.append_assoc, h.inOrder]
      simp

theorem Queues.drops (h : j.Queues capacity x)
    (hattempt : x.queue.attempt? s task = some (.refused, x'.queue))
    (houtlets : x'.outlet = Function.update x.outlet s o) : j.Queues capacity x' := by
  obtain ⟨hcapacity, hfits, hwaits⟩ := Channel.attempt?_places hattempt
  rcases Channel.attempt?_cases h.pendingOnce hattempt with
    ⟨hsending, -⟩ | ⟨hpending, ⟨-, -, hbuffer⟩ | ⟨u, hsending, -⟩⟩
  · cases hsending
  · obtain ⟨honce, hheld⟩ := h.pending_of_others hpending houtlets
    constructor
    · exact hcapacity.trans h.capacity_eq
    · exact hfits h.fits
    · exact hwaits h.pendingOnce h.waits
    · exact honce
    · exact hheld
    · rw [hbuffer]
      exact h.inOrder
  · cases hsending

theorem Queues.fetches (h : j.Queues capacity x) {queue : Channel SessionId Task}
    (hqueue : queue = x.queue ∨ queue = x.queue.close)
    (htake : queue.take? = some (task, x'.queue)) (houtlets : x'.outlet = x.outlet)
    (party : Party) :
    ({ j with fetched := j.fetched ++ [(party, task)] } : Journal).Queues capacity x' := by
  have hsame : j.Queues capacity { x with queue } := h.rests hqueue rfl
  obtain ⟨hbuffer, hpending, -⟩ := Channel.take?_some htake
  obtain ⟨hcapacity, hfits, hwaits⟩ := Channel.take?_places htake
  constructor
  · exact hcapacity.trans hsame.capacity_eq
  · exact hfits hsame.fits
  · exact hwaits hsame.waits
  · rw [hpending]
    exact hsame.pendingOnce
  · rw [hpending, houtlets]
    exact hsame.pending
  · have hinOrder := hsame.inOrder
    change j.fetched.map Prod.snd ++ queue.buffer = _ at hinOrder
    rw [hbuffer] at hinOrder
    simpa using hinOrder

/-! ## Any deal -/

/-- The journal agrees with the exchange. -/
structure Matches (capacity : Nat) (j : Journal) (x : Exchange) : Prop where
  queues : j.Queues capacity x
  tracks : ∀ s, j.Tracks s (x.outlet s)

theorem tracks_update (h : ∀ s, j.Tracks s (x.outlet s))
    (houtlets : x'.outlet = Function.update x.outlet s o) (hself : j'.Tracks s o)
    (hothers : ∀ {s' : SessionId} {o' : Outlet}, s ≠ s' → j.Tracks s' o' → j'.Tracks s' o')
    (s' : SessionId) : j'.Tracks s' (x'.outlet s') := by
  rw [houtlets]
  by_cases he : s = s'
  · subst he
    rw [Function.update_self]
    exact hself
  · rw [Function.update_of_ne (Ne.symm he)]
    exact hothers he (h s')

end Journal

/-- Whatever a deal does to the tasks on their way, the journal goes on agreeing. -/
theorem Exchange.Conveys.matches (h : Conveys j x d j' x') (hmatches : j.Matches capacity x) :
    j'.Matches capacity x' := by
  obtain ⟨hqueues, htracks⟩ := hmatches
  cases h with
  | rests hqueue houtlets =>
      refine ⟨hqueues.rests hqueue houtlets, ?_⟩
      rw [houtlets]
      exact htracks
  | @offers _ s party task sending tasks hoffer hqueue houtlets =>
      have hkept : (j.noteSend s task sending).fetched = j.fetched ∧
          (j.noteSend s task sending).queued = j.queued := by
        cases sending <;> exact ⟨rfl, rfl⟩
      exact ⟨hqueues.setTasks hqueue houtlets hkept.1 hkept.2,
        Journal.tracks_update htracks houtlets ((htracks s).offer hoffer)
          fun hne hother => hother.noteSend_ne hne task sending⟩
  | @resumes _ s party sending tasks hresume hqueue houtlets =>
      have hkept : ∀ task?, (j.noteResume s task? sending).fetched = j.fetched ∧
          (j.noteResume s task? sending).queued = j.queued := by
        intro task?
        cases sending <;> exact ⟨rfl, rfl⟩
      exact ⟨hqueues.setTasks hqueue houtlets (hkept _).1 (hkept _).2,
        Journal.tracks_update htracks houtlets ((htracks s).resume hresume)
          fun hne hother => hother.noteResume_ne hne _ sending⟩
  | @withdraws _ s party hqueue houtlets =>
      exact ⟨hqueues.setTasks hqueue houtlets rfl rfl,
        Journal.tracks_update htracks houtlets ((htracks s).withdraw party) fun _ => id⟩
  | @takes _ s task tasks hrelay htake _ hqueue houtlets =>
      exact ⟨hqueues.setIdle hrelay hqueue houtlets,
        Journal.tracks_update htracks houtlets ((htracks s).takes hrelay htake) fun _ => id⟩
  | @ends _ s tasks hrelay htasks hqueue houtlets =>
      exact ⟨hqueues.setIdle hrelay hqueue houtlets,
        Journal.tracks_update htracks houtlets ((htracks s).ends htasks) fun _ => id⟩
  | waits hrelay hattempt houtlets =>
      refine ⟨hqueues.waiting hrelay hattempt houtlets, ?_⟩
      rw [houtlets]
      exact htracks
  | @puts _ s task hrelay hattempt houtlets =>
      refine ⟨hqueues.puts hrelay hattempt houtlets,
        Journal.tracks_update htracks houtlets ((htracks s).puts hrelay) fun hne hother => ?_⟩
      exact hother.congr rfl rfl (by simp [tasksOf_ne hne])
  | @drops _ s task hrelay hattempt houtlets =>
      exact ⟨hqueues.drops hattempt houtlets,
        Journal.tracks_update htracks houtlets ((htracks s).ends (.inl rfl)) fun _ => id⟩
  | @fetches _ party _ task queue hqueue htake houtlets =>
      refine ⟨hqueues.fetches hqueue htake houtlets party, fun s => ?_⟩
      rw [houtlets]
      exact (htracks s).congr rfl rfl rfl

/-! ## Relays that have to wait -/

/-- The relay of a session has a task in hand and can do nothing with it. -/
def Exchange.Blocked (x : Exchange) (s : SessionId) (task : Task) : Prop :=
  x.relay? s = some (.holding task) ∧ x.relayStep? s = none

theorem Exchange.blocked_iff :
    x.Blocked s task ↔
      (x.outlet s).relay = .holding task ∧ x.queue.attempt? s task = none := by
  unfold Blocked
  rw [relay?_eq_holding]
  refine and_congr_right fun hholding => ?_
  obtain ⟨session, hs, hrelay⟩ := Option.map_eq_some_iff.mp (relay?_eq_holding.mpr hholding)
  simp [relayStep?, hs, hrelay, relayPuts?]

/-- A relay lets go of its task only by putting it into the queue, or if the queue is closed. -/
theorem Exchange.Conveys.holds (h : Conveys j x d j' x')
    (hholding : (x.outlet s).relay = .holding task) :
    (x'.outlet s).relay = .holding task ∨
      (x.queue.attempt? s task = some (.accepted, x'.queue) ∧
        j'.queued = j.queued ++ [(s, task)]) ∨
      x.queue.closed = true := by
  have hother : ∀ {s' : SessionId} {o : Outlet}, s' ≠ s ∨ o.relay = .holding task →
      (Function.update x.outlet s' o s).relay = .holding task := by
    intro s' o hcases
    by_cases he : s = s'
    · subst he
      rw [Function.update_self]
      rcases hcases with hne | hrelay
      · exact absurd rfl hne
      · exact hrelay
    · rw [Function.update_of_ne he]
      exact hholding
  have hkept : ∀ {s' : SessionId} {tasks : Channel Party Task},
      (Function.update x.outlet s' { x.outlet s' with tasks } s).relay = .holding task := by
    intro s' tasks
    apply hother
    by_cases he : s' = s
    · subst he
      exact .inr hholding
    · exact .inl he
  have hbusy : ∀ {s' : SessionId}, (x.outlet s').relay = .idle → s' ≠ s := by
    rintro s' hidle rfl
    cases hidle.symm.trans hholding
  cases h with
  | rests _ houtlets => exact .inl (houtlets ▸ hholding)
  | offers _ _ houtlets => exact .inl (houtlets ▸ hkept)
  | resumes _ _ houtlets => exact .inl (houtlets ▸ hkept)
  | withdraws _ houtlets => exact .inl (houtlets ▸ hkept)
  | takes hrelay _ _ _ houtlets => exact .inl (houtlets ▸ hother (.inl (hbusy hrelay)))
  | ends hrelay _ _ houtlets => exact .inl (houtlets ▸ hother (.inl (hbusy hrelay)))
  | waits _ _ houtlets => exact .inl (houtlets ▸ hholding)
  | @puts _ s' other hrelay hattempt houtlets =>
      by_cases he : s' = s
      · subst he
        obtain rfl := Relay.holding.inj (hrelay.symm.trans hholding)
        exact .inr (.inl ⟨hattempt, rfl⟩)
      · exact .inl (houtlets ▸ hother (.inl he))
  | drops _ hattempt _ => exact .inr (.inr (Channel.closed_of_attempt? hattempt))
  | fetches _ _ houtlets => exact .inl (houtlets ▸ hholding)

theorem Journal.Queues.pending_of_blocked (h : j.Queues capacity x) (hblocked : x.Blocked s task) :
    (s, task) ∈ x.queue.pending := by
  obtain ⟨hholding, hnone⟩ := blocked_iff.mp hblocked
  obtain ⟨-, u, hu⟩ := Channel.attempt?_eq_none hnone
  have hmem := List.mem_append_right x.queue.granted hu
  obtain rfl := Relay.holding.inj ((h.pending s u hmem).symm.trans hholding)
  exact hmem

/-- Who has to wait at the queue stays there whatever others do. -/
theorem Exchange.Conveys.stays_pending (h : Conveys j x d j' x') (hqueues : j.Queues capacity x)
    (hnone : x.queue.attempt? s task = none) (hpending : (s, task) ∈ x.queue.pending) :
    (s, task) ∈ x'.queue.pending := by
  cases h with
  | rests hqueue _ => rcases hqueue with hqueue | hqueue <;> exact hqueue ▸ hpending
  | offers _ hqueue _ => exact hqueue ▸ hpending
  | resumes _ hqueue _ => exact hqueue ▸ hpending
  | withdraws hqueue _ => exact hqueue ▸ hpending
  | takes _ _ _ hqueue _ => exact hqueue ▸ hpending
  | ends _ _ hqueue _ => exact hqueue ▸ hpending
  | waits _ hattempt _ =>
      rcases Channel.attempt?_cases hqueues.pendingOnce hattempt with
        ⟨-, -, -, -, hwaiting⟩ | ⟨-, ⟨hsending, -⟩ | ⟨u, hsending, -⟩⟩
      · rw [hwaiting]
        exact List.mem_append_left _ hpending
      · cases hsending
      · cases hsending
  | @puts _ s' other hrelay hattempt _ =>
      rcases Channel.attempt?_cases hqueues.pendingOnce hattempt with
        ⟨hsending, -⟩ | ⟨hothers, -⟩
      · cases hsending
      · have hne : s ≠ s' := by
          rintro rfl
          obtain rfl := Relay.holding.inj (hrelay.symm.trans (hqueues.pending s task hpending))
          cases hnone.symm.trans hattempt
        rw [hothers]
        exact List.mem_filter.mpr ⟨hpending, by simpa using hne⟩
  | drops _ hattempt _ =>
      have hopen := (Channel.attempt?_eq_none hnone).1
      cases hopen.symm.trans (Channel.closed_of_attempt? hattempt)
  | fetches hqueue htake _ =>
      rw [(Channel.take?_some htake).2.1]
      rcases hqueue with rfl | rfl <;> exact hpending

/-- A relay that has to wait keeps its task until it gets a place or the queue is closed. -/
theorem Exchange.Conveys.blocked (h : Conveys j x d j' x') (hqueues : j.Queues capacity x)
    (hqueues' : j'.Queues capacity x') (hblocked : x.Blocked s task) :
    x'.relay? s = some (.holding task) ∧
      (x'.Blocked s task ∨ (s, task) ∈ x'.queue.granted ∨ x'.queue.closed = true) := by
  obtain ⟨hholding, hnone⟩ := blocked_iff.mp hblocked
  obtain ⟨hopen, -⟩ := Channel.attempt?_eq_none hnone
  have hpending := hqueues.pending_of_blocked hblocked
  have hholding' : (x'.outlet s).relay = .holding task := by
    rcases h.holds hholding with hkept | ⟨hattempt, -⟩ | hclosed
    · exact hkept
    · cases hnone.symm.trans hattempt
    · cases hopen.symm.trans hclosed
  refine ⟨relay?_eq_holding.mpr hholding', ?_⟩
  by_cases hclosed : x'.queue.closed = true
  · exact .inr (.inr hclosed)
  · rcases List.mem_append.mp (h.stays_pending hqueues hnone hpending) with hgranted | hwaiting
    · exact .inr (.inl hgranted)
    · have hnone' := Channel.attempt?_of_waiting hqueues'.pendingOnce
        (Bool.eq_false_iff.mpr hclosed) hwaiting task
      exact .inl (blocked_iff.mpr ⟨hholding', hnone'⟩)

/-- A relay has to wait only if every place of the queue is taken or reserved. -/
theorem Journal.Queues.full (h : j.Queues capacity x) (hblocked : x.Blocked s task) :
    x.pending = capacity := by
  obtain ⟨-, hnone⟩ := blocked_iff.mp hblocked
  obtain ⟨hopen, u, hu⟩ := Channel.attempt?_eq_none hnone
  have hfull := h.waits hopen (List.ne_nil_of_mem hu)
  have hfits := h.fits
  rw [Channel.Fits, h.capacity_eq] at hfits
  rw [h.capacity_eq] at hfull
  exact Nat.le_antisymm hfits hfull

/-! ## Any history -/

namespace Journaled

variable {settings : QueueSettings}

/-- The law of tasks on their way through an exchange, whatever has happened at it. -/
structure KeepsOrder (settings : QueueSettings) (j : Journaled) : Prop where
  /-- What was put into the queue is what was fetched, each by one party, and what is there. -/
  queue : j.journal.fetched.map Prod.snd ++ j.exchange.queue.buffer =
    j.journal.queued.map Prod.snd
  /-- The tasks of a session get into the queue in the order in which they were sent. -/
  sent : ∀ s, tasksOf s j.journal.queued <+: tasksOf s j.journal.sent
  begun : ∀ s, (tasksOf s j.journal.sent).Sublist (tasksOf s j.journal.begun)
  /-- None of them is lost before, unless the relay has ended. -/
  onTheWay : ∀ (s : SessionId) (session : Session), j.exchange.sessions[s]? = some session →
    session.hasEnded = false →
    tasksOf s j.journal.queued ++ session.outlet.held ++ session.tasks.buffer =
      tasksOf s j.journal.sent
  room : j.exchange.pending ≤ max settings.capacity 1
  /-- Beyond the queue a session keeps one task in its channel and one in the hand of its relay. -/
  kept : ∀ (s : SessionId) (session : Session), j.exchange.sessions[s]? = some session →
    session.tasks.occupied ≤ 1 ∧ session.outlet.held.length ≤ 1
  holds : ∀ s task d j', j.exchange.relay? s = some (.holding task) → j.deal? d = some j' →
    j'.exchange.relay? s = some (.holding task) ∨
      j'.journal.queued = j.journal.queued ++ [(s, task)] ∨ j.exchange.queue.closed = true
  /-- A relay that has to wait finds the queue full, and keeps its task until it gets a place or
  the queue is closed. -/
  blocked : ∀ s task, j.exchange.Blocked s task →
    j.exchange.pending = max settings.capacity 1 ∧
      ∀ d j', j.deal? d = some j' →
        j'.exchange.relay? s = some (.holding task) ∧
          (j'.exchange.Blocked s task ∨ (s, task) ∈ j'.exchange.queue.granted ∨
            j'.exchange.queue.closed = true)

theorem matches_opened (settings : QueueSettings) :
    (opened settings).journal.Matches (max settings.capacity 1) (opened settings).exchange := by
  constructor
  · constructor
    · rfl
    · exact Nat.zero_le _
    · exact fun _ hwaiting => absurd rfl hwaiting
    · exact List.nodup_nil
    · exact nofun
    · rfl
  · intro s
    constructor
    · rfl
    · exact Nat.zero_le _
    · exact fun _ => rfl
    · exact List.prefix_rfl
    · exact List.Sublist.refl _

theorem matches_deals? {j j' : Journaled} {deals : List Deal}
    (h : j.journal.Matches capacity j.exchange) (hdeals : j.deals? deals = some j') :
    j'.journal.Matches capacity j'.exchange := by
  induction deals generalizing j with
  | nil =>
      cases hdeals
      exact h
  | cons d rest ih =>
      obtain ⟨next, hdeal, hrest⟩ := Option.bind_eq_some_iff.mp hdeals
      exact ih ((conveys_of_deal? hdeal).matches h) hrest

theorem keepsOrder_of_matches {j : Journaled}
    (h : j.journal.Matches (max settings.capacity 1) j.exchange) : j.KeepsOrder settings := by
  obtain ⟨hqueues, htracks⟩ := h
  have htracksOf : ∀ {s : SessionId} {session : Session},
      j.exchange.sessions[s]? = some session → j.journal.Tracks s session.outlet := by
    intro s session hs
    rw [← outlet_eq hs]
    exact htracks s
  constructor
  · exact hqueues.inOrder
  · exact fun s => (htracks s).queued
  · exact fun s => (List.sublist_append_left _ _).trans (htracks s).begun
  · intro s session hs hlive
    apply (htracksOf hs).sent
    intro hended
    have hrelay : session.relay = .ended := hended
    simp [Session.hasEnded, hrelay] at hlive
  · rw [← hqueues.capacity_eq]
    exact hqueues.fits
  · intro s session hs
    have hfits := (htracksOf hs).fits
    rw [Channel.Fits, (htracksOf hs).capacity_eq] at hfits
    refine ⟨hfits, ?_⟩
    unfold Outlet.held
    split
    · exact Nat.le_refl 1
    · exact Nat.zero_le 1
  · intro s task d j' hholding hdeal
    rcases (conveys_of_deal? hdeal).holds (relay?_eq_holding.mp hholding) with
      hkept | ⟨-, hqueued⟩ | hclosed
    · exact .inl (relay?_eq_holding.mpr hkept)
    · exact .inr (.inl hqueued)
    · exact .inr (.inr hclosed)
  · intro s task hblocked
    refine ⟨hqueues.full hblocked, fun d j' hdeal => ?_⟩
    have hconveys := conveys_of_deal? hdeal
    exact hconveys.blocked hqueues (hconveys.matches ⟨hqueues, htracks⟩).queues hblocked

/-- Whatever happens at an exchange, tasks pass through it in order and none of them twice. -/
theorem deals?_keepsOrder {deals : List Deal} {j : Journaled}
    (hdeals : (opened settings).deals? deals = some j) : j.KeepsOrder settings :=
  keepsOrder_of_matches (matches_deals? (matches_opened settings) hdeals)

/-- The queue of an exchange that is given no room has one place.  The task of one session takes
it, and the relay of the other one has to wait. -/
theorem deals?_keepsOrder_full :
    ∃ j, (opened ⟨0, none⟩).deals?
        [.openSession, .openSession,
          .send 0 5 (.make ⟨7⟩ .add 1.0 1.0 0), .send 1 6 (.make ⟨9⟩ .sub 5.0 1.0 0),
          .relay 0, .relay 1, .relay 0, .relay 1] = some j ∧
      j.exchange.Blocked 1 (.make ⟨9⟩ .sub 5.0 1.0 0) ∧ j.KeepsOrder ⟨0, none⟩ := by
  generalize hrun : (opened ⟨0, none⟩).deals? _ = run
  have hblocked : ∃ j, run = some j ∧ j.exchange.Blocked 1 (.make ⟨9⟩ .sub 5.0 1.0 0) := by
    subst hrun
    exact ⟨_, rfl, rfl, rfl⟩
  obtain ⟨j, rfl, hblocked⟩ := hblocked
  exact ⟨j, rfl, hblocked, deals?_keepsOrder hrun⟩

end Journaled

end TaskFarm
