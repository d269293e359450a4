import TaskFarm.Proofs.Exchange.Account
import TaskFarm.Proofs.Exchange.Steps
import Mathlib.Data.List.Nodup

/-!
# The account of an exchange is sound

The invariant says where the tasks and results of each session come from, and how the routes of the
exchange follow from what was registered, submitted and withdrawn.  A deal is a few small changes
one after the other, each of which keeps it: a session or the queue is replaced, or one entry is
added to the account.
-/

namespace TaskFarm

/-- The account agrees with a session of the exchange. -/
structure Account.Covers (acc : Account) (s : SessionId) (session : Session) : Prop where
  sent : ∀ task ∈ session.tasks.buffer, (s, task) ∈ acc.sent
  once : (session.tasks.buffer.map Task.id).Nodup
  /-- A task in the session's channel has not got its route yet. -/
  fresh : ∀ task ∈ session.tasks.buffer, task.id ∉ acc.known
  /-- A task that the relay holds has got its route, and nothing else. -/
  holding : ∀ task, session.relay = .holding task →
    (task.id, s) ∈ acc.registered ∧ task.id ∉ acc.queued ∧ task.id ∉ acc.withdrawn
  results : ∀ r ∈ session.results.contents, (r.id, s) ∈ acc.registered
  dropped : session.results.closed = true → s ∈ acc.dropped

/-- The account agrees with the exchange. -/
structure Audited.Sound (a : Audited) : Prop where
  sentOnce : a.account.SentOnce
  /-- The routes are those registered that are neither used up nor forgotten. -/
  routes_eq : a.exchange.routes =
    a.account.registered.filter fun route => decide (route.1 ∉ a.account.settled)
  knownOnce : a.account.known.Nodup
  known : ∀ id s, (id, s) ∈ a.account.registered →
    s < a.exchange.sessions.size ∧ a.account.HasSent s id
  settledOnce : a.account.settled.Nodup
  settled : a.account.settled ⊆ a.account.known
  queued : ∀ id ∈ a.account.queued, id ∈ a.account.known ∧ id ∉ a.account.withdrawn
  inQueue : ∀ task ∈ a.exchange.queue.buffer, task.id ∈ a.account.queued
  fetched : a.account.fetched ⊆ a.account.queued
  pendingOnce : (a.exchange.queue.pending.map Prod.fst).Nodup
  /-- Only relays that hold a task wait at the queue, each with its task. -/
  pending : ∀ s task, (s, task) ∈ a.exchange.queue.pending →
    a.exchange.relay? s = some (.holding task)
  received : ∀ s r, (s, r) ∈ a.account.received → (r.id, s) ∈ a.account.registered
  covers : ∀ s session, a.exchange.sessions[s]? = some session → a.account.Covers s session

namespace Account

variable {acc acc' : Account} {s s' : SessionId} {session session' : Session} {id : TaskId}

theorem HasSent.mono (h : acc.HasSent s id) (hsent : acc.sent ⊆ acc'.sent) :
    acc'.HasSent s id := by
  obtain ⟨task, htask, hid⟩ := h
  exact ⟨task, hsent htask, hid⟩

/-- Two tasks that were sent and share an id are the same, sent by the same session. -/
theorem SentOnce.eq (h : acc.SentOnce) {task task' : Task} (htask : (s, task) ∈ acc.sent)
    (htask' : (s', task') ∈ acc.sent) (hid : task.id = task'.id) : s = s' ∧ task = task' := by
  have he := List.inj_on_of_nodup_map h htask htask' hid
  exact Prod.mk.inj he

/-- A route is noted for one session only. -/
theorem registered_inj (h : acc.known.Nodup) (hs : (id, s) ∈ acc.registered)
    (hs' : (id, s') ∈ acc.registered) : s = s' := by
  have he := List.inj_on_of_nodup_map h hs hs' rfl
  exact (Prod.mk.inj he).2

/-- What an account covers stays covered while the session's own tasks get no further notes. -/
theorem Covers.mono (h : acc.Covers s session) (hsent : acc.sent ⊆ acc'.sent)
    (hregistered : acc.registered ⊆ acc'.registered) (hdropped : acc.dropped ⊆ acc'.dropped)
    (hfresh : ∀ task ∈ session.tasks.buffer, task.id ∉ acc.known → task.id ∉ acc'.known)
    (hholding : ∀ task, session.relay = .holding task →
      task.id ∉ acc.queued ∧ task.id ∉ acc.withdrawn →
      task.id ∉ acc'.queued ∧ task.id ∉ acc'.withdrawn) :
    acc'.Covers s session where
  sent task htask := hsent (h.sent task htask)
  once := h.once
  fresh task htask := hfresh task htask (h.fresh task htask)
  holding task hrelay :=
    ⟨hregistered (h.holding task hrelay).1, hholding task hrelay (h.holding task hrelay).2⟩
  results r hr := hregistered (h.results r hr)
  dropped hclosed := hdropped (h.dropped hclosed)

/-- The channel for tasks may lose some, and the relay may let go of its task. -/
theorem Covers.shrink (h : acc.Covers s session) {tasks : Channel Party Task} {relay : Relay}
    (htasks : tasks.buffer.Sublist session.tasks.buffer)
    (hrelay : ∀ task, relay = .holding task → session.relay = .holding task) (gone : Bool) :
    acc.Covers s { session with tasks, relay, senderGone := gone } where
  sent task htask := h.sent task (htasks.subset htask)
  once := h.once.sublist (htasks.map _)
  fresh task htask := h.fresh task (htasks.subset htask)
  holding task ht := h.holding task (hrelay task ht)
  results := h.results
  dropped := h.dropped

theorem covers_opened (acc : Account) (s : SessionId) : acc.Covers s .opened where
  sent := nofun
  once := List.nodup_nil
  fresh := nofun
  holding := nofun
  results := nofun
  dropped := nofun

end Account

namespace Audited

variable {acc : Account} {x : Exchange} {s : SessionId} {session : Session} {task : Task}

open Exchange
open scoped List

theorem sound_opened (settings : QueueSettings) : (opened settings).Sound where
  sentOnce := List.nodup_nil
  routes_eq := rfl
  knownOnce := List.nodup_nil
  known := nofun
  settledOnce := List.nodup_nil
  settled := nofun
  queued := nofun
  inQueue := nofun
  fetched := nofun
  pendingOnce := List.nodup_nil
  pending := nofun
  received := nofun
  covers _ _ hs := by simp [opened, Exchange.opened] at hs

/-! ## Replacing a part of the exchange -/

theorem Sound.setSession (h : Sound ⟨acc, x⟩) (hs : x.sessions[s]? = some session)
    {session' : Session} (hcovers : acc.Covers s session')
    (hpending : ∀ task, (s, task) ∈ x.queue.pending → session'.relay = .holding task) :
    Sound ⟨acc, x.setSession s session'⟩ :=
  { h with
    known := by simpa using h.known
    pending := by
      intro s' task htask
      by_cases he : s = s'
      · subst he
        simp [relay?, setSession_self hs, hpending task htask]
      · simpa [relay?, setSession_ne session' he] using h.pending s' task htask
    covers := by
      intro s' found hfound
      rcases setSession_cases hs hfound with ⟨rfl, rfl⟩ | ⟨-, hfound⟩
      · exact hcovers
      · exact h.covers s' found hfound }

/-- A session that keeps its relay may be replaced by any other that is covered. -/
theorem Sound.setSession_relay (h : Sound ⟨acc, x⟩) (hs : x.sessions[s]? = some session)
    {session' : Session} (hcovers : acc.Covers s session')
    (hrelay : session'.relay = session.relay) : Sound ⟨acc, x.setSession s session'⟩ := by
  refine h.setSession hs hcovers fun task htask => ?_
  have hheld := h.pending s task htask
  simp only [relay?, hs, Option.map_some, Option.some.injEq] at hheld
  rw [hrelay, hheld]

theorem Sound.setQueue (h : Sound ⟨acc, x⟩) {queue : Channel SessionId Task}
    (hbuffer : ∀ task ∈ queue.buffer, task.id ∈ acc.queued)
    (hpending : queue.pending.Sublist x.queue.pending) :
    Sound ⟨acc, { x with queue }⟩ :=
  { h with
    inQueue := hbuffer
    pendingOnce := h.pendingOnce.sublist (hpending.map _)
    pending := fun s task htask => h.pending s task (hpending.subset htask) }

/-- The line and whether the exchange is closed do not matter. -/
theorem Sound.setLine (h : Sound ⟨acc, x⟩) (line : List PendingFetch) (closed : Bool) :
    Sound ⟨acc, { x with line, closed }⟩ :=
  { h with }

theorem Sound.openSession (h : Sound ⟨acc, x⟩) : Sound ⟨acc, x.openSession.2⟩ :=
  { h with
    known := by
      intro id s hid
      obtain ⟨hlt, hsent⟩ := h.known id s hid
      refine ⟨?_, hsent⟩
      simpa [Exchange.openSession] using Nat.lt_succ_of_lt hlt
    pending := by
      intro s task htask
      have hheld := h.pending s task htask
      obtain ⟨session, hs, hrelay⟩ := Option.map_eq_some_iff.mp hheld
      obtain ⟨hlt, -⟩ := Array.getElem?_eq_some_iff.mp hs
      simp only [relay?, Exchange.openSession, Array.getElem?_push, Nat.ne_of_lt hlt, if_false]
      exact hheld
    covers := by
      intro s found hfound
      rcases openSession_cases hfound with ⟨-, rfl⟩ | hfound
      · exact acc.covers_opened s
      · exact h.covers s found hfound }

/-! ## Adding an entry to the account -/

theorem Sound.mem_known (_ : Sound ⟨acc, x⟩) {i : TaskId} (hi : (i, s) ∈ acc.registered) :
    i ∈ acc.known :=
  List.mem_map.mpr ⟨(i, s), hi, rfl⟩

theorem Sound.mem_routes (h : Sound ⟨acc, x⟩) {i : TaskId} :
    (i, s) ∈ x.routes ↔ (i, s) ∈ acc.registered ∧ i ∉ acc.settled := by
  have hroutes : x.routes = acc.registered.filter fun route => decide (route.1 ∉ acc.settled) :=
    h.routes_eq
  simp [hroutes]

theorem Sound.addSent (h : Sound ⟨acc, x⟩) {entries : List (SessionId × Task)}
    (honce : Account.SentOnce { acc with sent := acc.sent ++ entries }) :
    Sound ⟨{ acc with sent := acc.sent ++ entries }, x⟩ :=
  { h with
    sentOnce := honce
    known := fun i s hi => ⟨(h.known i s hi).1,
      (h.known i s hi).2.mono (List.subset_append_left _ _)⟩
    covers := fun s session hs => (h.covers s session hs).mono (List.subset_append_left _ _)
      (List.Subset.refl _) (List.Subset.refl _) (fun _ _ => id) (fun _ _ => id) }

/-- A task gets its route before anything else happens to it. -/
theorem Sound.addRoute (h : Sound ⟨acc, x⟩) (hlt : s < x.sessions.size)
    (hsent : (s, task) ∈ acc.sent) (hnew : task.id ∉ acc.known)
    (hgone : ∀ (s' : SessionId) (session : Session), x.sessions[s']? = some session →
      ∀ other ∈ session.tasks.buffer, other.id ≠ task.id) :
    Sound ⟨{ acc with registered := acc.registered ++ [(task.id, s)] }, x.addRoute task.id s⟩ := by
  have hunsettled : task.id ∉ acc.settled := fun hi => hnew (h.settled hi)
  have hunrouted : x.route? task.id = none := by
    refine route?_eq_none.mpr fun hi => hnew ?_
    rw [h.routes_eq] at hi
    exact List.map_subset _ List.filter_sublist.subset hi
  have hroutes : (x.addRoute task.id s).routes = x.routes ++ [(task.id, s)] :=
    congrArg (· ++ [(task.id, s)]) (congrArg Exchange.routes (removeRoute_eq_self hunrouted))
  have hknown : ∀ i, i ∈ (acc.registered ++ [(task.id, s)]).map Prod.fst ↔
      i ∈ acc.known ∨ i = task.id := by
    simp [Account.known]
  exact { h with
    routes_eq := by
      have hlast : ([(task.id, s)].filter fun route => decide (route.1 ∉ acc.settled)) =
          [(task.id, s)] := by
        simpa using hunsettled
      rw [hroutes, h.routes_eq, List.filter_append]
      exact congrArg (_ ++ ·) hlast.symm
    knownOnce := by
      have hperm : (acc.registered ++ [(task.id, s)]).map Prod.fst ~ task.id :: acc.known := by
        simp [Account.known]
      exact hperm.nodup_iff.mpr (List.nodup_cons.mpr ⟨hnew, h.knownOnce⟩)
    known := by
      intro i s' hi
      rcases List.mem_append.mp hi with hi | hi
      · exact h.known i s' hi
      · obtain ⟨rfl, rfl⟩ := Prod.mk.inj (List.mem_singleton.mp hi)
        exact ⟨hlt, task, hsent, rfl⟩
    settled := fun i hi => (hknown i).mpr (.inl (h.settled hi))
    queued := fun i hi => ⟨(hknown i).mpr (.inl (h.queued i hi).1), (h.queued i hi).2⟩
    received := fun s r hr => List.mem_append_left _ (h.received s r hr)
    covers := by
      intro s' session hs
      refine (h.covers s' session hs).mono (List.Subset.refl _) (List.subset_append_left _ _)
        (List.Subset.refl _) ?_ (fun _ _ => id)
      intro other hother hfresh hi
      exact ((hknown _).mp hi).elim hfresh (hgone s' session hs other hother) }

/-- The relay that held a task has put it into the queue. -/
theorem Sound.addQueued (h : Sound ⟨acc, x⟩) {i : TaskId} (hknown : i ∈ acc.known)
    (hkept : i ∉ acc.withdrawn)
    (hfree : ∀ (s : SessionId) (session : Session), x.sessions[s]? = some session →
      ∀ task, session.relay = .holding task → task.id ≠ i) :
    Sound ⟨{ acc with queued := acc.queued ++ [i] }, x⟩ :=
  { h with
    queued := by
      intro j hj
      rcases List.mem_append.mp hj with hj | hj
      · exact h.queued j hj
      · rw [List.mem_singleton.mp hj]
        exact ⟨hknown, hkept⟩
    inQueue := fun task htask => List.mem_append_left _ (h.inQueue task htask)
    fetched := fun j hj => List.mem_append_left _ (h.fetched hj)
    covers := by
      intro s session hs
      refine (h.covers s session hs).mono (List.Subset.refl _) (List.Subset.refl _)
        (List.Subset.refl _) (fun _ _ => id) ?_
      intro task hrelay hheld
      refine ⟨?_, hheld.2⟩
      simpa using And.intro hheld.1 (hfree s session hs task hrelay) }

/-- One more task is settled, and its route is gone. -/
theorem Sound.settle (h : Sound ⟨acc, x⟩) {i : TaskId} (hi : (i, s) ∈ x.routes)
    {settled : List TaskId} (hperm : settled ~ i :: acc.settled) :
    (x.removeRoute i).routes =
        acc.registered.filter (fun route => decide (route.1 ∉ settled)) ∧
      settled.Nodup ∧ settled ⊆ acc.known := by
  obtain ⟨hregistered, hunsettled⟩ := h.mem_routes.mp hi
  have hroutes : x.routes = acc.registered.filter fun route => decide (route.1 ∉ acc.settled) :=
    h.routes_eq
  refine ⟨?_, ?_, ?_⟩
  · simp only [removeRoute, hroutes, List.filter_filter]
    refine List.filter_congr fun route _ => ?_
    by_cases he : route.1 = i
    · simp [he, hperm.mem_iff]
    · simp [he, hperm.mem_iff]
  · exact hperm.nodup_iff.mpr (List.nodup_cons.mpr ⟨hunsettled, h.settledOnce⟩)
  · exact List.Subset.trans hperm.subset
      (List.cons_subset.mpr ⟨h.mem_known hregistered, h.settled⟩)

/-- A result for which there is a route has come. -/
theorem Sound.addSubmitted (h : Sound ⟨acc, x⟩) {i : TaskId} (hi : (i, s) ∈ x.routes) :
    Sound ⟨{ acc with submitted := acc.submitted ++ [i] }, x.removeRoute i⟩ := by
  have hperm : acc.submitted ++ [i] ++ acc.withdrawn ~ i :: acc.settled := by
    simp [Account.settled]
  obtain ⟨hroutes, honce, hknown⟩ := h.settle hi hperm
  exact { h with
    routes_eq := hroutes
    settledOnce := honce
    settled := hknown
    covers := fun s session hs => (h.covers s session hs).mono (List.Subset.refl _)
      (List.Subset.refl _) (List.Subset.refl _) (fun _ _ => id) (fun _ _ => id) }

/-- The relay that held a task has given it up, and nobody has used its route. -/
theorem Sound.addWithdrawn (h : Sound ⟨acc, x⟩) {i : TaskId} (hi : (i, s) ∈ x.routes)
    (hunqueued : i ∉ acc.queued)
    (hfree : ∀ (s : SessionId) (session : Session), x.sessions[s]? = some session →
      ∀ task, session.relay = .holding task → task.id ≠ i) :
    Sound ⟨{ acc with withdrawn := acc.withdrawn ++ [i] }, x.removeRoute i⟩ := by
  have hperm : acc.submitted ++ (acc.withdrawn ++ [i]) ~ i :: acc.settled := by
    rw [← List.append_assoc]
    exact List.perm_append_singleton _ _
  obtain ⟨hroutes, honce, hknown⟩ := h.settle hi hperm
  exact { h with
    routes_eq := hroutes
    settledOnce := honce
    settled := hknown
    queued := by
      intro j hj
      refine ⟨(h.queued j hj).1, ?_⟩
      have hne : j ≠ i := fun he => hunqueued (he ▸ hj)
      simpa using And.intro (h.queued j hj).2 hne
    covers := by
      intro s session hs
      refine (h.covers s session hs).mono (List.Subset.refl _) (List.Subset.refl _)
        (List.Subset.refl _) (fun _ _ => id) ?_
      intro task hrelay hheld
      refine ⟨hheld.1, ?_⟩
      simpa using And.intro hheld.2 (hfree s session hs task hrelay) }

theorem Sound.addFetched (h : Sound ⟨acc, x⟩) {i : TaskId} (hi : i ∈ acc.queued) :
    Sound ⟨{ acc with fetched := acc.fetched ++ [i] }, x⟩ :=
  { h with
    fetched := List.append_subset.mpr ⟨h.fetched, by simpa using hi⟩
    covers := fun s session hs => (h.covers s session hs).mono (List.Subset.refl _)
      (List.Subset.refl _) (List.Subset.refl _) (fun _ _ => id) (fun _ _ => id) }

theorem Sound.addReceived (h : Sound ⟨acc, x⟩) {r : TaskResult} (hr : (r.id, s) ∈ acc.registered) :
    Sound ⟨{ acc with received := acc.received ++ [(s, r)] }, x⟩ :=
  { h with
    received := by
      intro s' r' hr'
      rcases List.mem_append.mp hr' with hr' | hr'
      · exact h.received s' r' hr'
      · obtain ⟨rfl, rfl⟩ := Prod.mk.inj (List.mem_singleton.mp hr')
        exact hr
    covers := fun s session hs => (h.covers s session hs).mono (List.Subset.refl _)
      (List.Subset.refl _) (List.Subset.refl _) (fun _ _ => id) (fun _ _ => id) }

theorem Sound.addDropped (h : Sound ⟨acc, x⟩) (s : SessionId) :
    Sound ⟨{ acc with dropped := acc.dropped ++ [s] }, x⟩ :=
  { h with
    covers := fun s session hs => (h.covers s session hs).mono (List.Subset.refl _)
      (List.Subset.refl _) (List.subset_append_left _ _) (fun _ _ => id) (fun _ _ => id) }

end Audited

end TaskFarm
