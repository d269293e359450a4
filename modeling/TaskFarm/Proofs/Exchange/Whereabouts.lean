import TaskFarm.Proofs.Exchange.Fifo

/-!
# Where the task of a session is

A session whose owner waits for each result before it sends the next task has at most one task at
the exchange.  The exchange shows where that task is: in the session's channel, in the hand of the
session's relay, away with its route kept, answered by a result in the session, or lost.  A step of
the exchange moves one task to the next of these places, or takes it out.
-/

namespace TaskFarm

open Exchange

inductive Whereabouts where
  | channel
  | hand
  /-- In the queue or with a worker. -/
  | away
  | answered
  /-- Gone with the relay, which has ended. -/
  | lost
  deriving DecidableEq

/-- A task that was sent and whose result has not been taken. -/
structure Parcel where
  id : TaskId
  whereabouts : Whereabouts
  deriving DecidableEq

/-- The ids that an exchange has to do with for one session. -/
structure Traffic where
  channel : List TaskId
  hand : List TaskId
  routed : List TaskId
  results : List TaskId

/-- What an exchange has of a session with at most one task. -/
def Traffic.of : Option Parcel → Traffic
  | none => ⟨[], [], [], []⟩
  | some ⟨id, .channel⟩ => ⟨[id], [], [], []⟩
  | some ⟨id, .hand⟩ => ⟨[], [id], [id], []⟩
  | some ⟨id, .away⟩ => ⟨[], [], [id], []⟩
  | some ⟨id, .answered⟩ => ⟨[], [], [], [id]⟩
  | some ⟨_, .lost⟩ => ⟨[], [], [], []⟩

def Session.traffic (session : Session) (routed : List TaskId) : Traffic :=
  ⟨session.tasks.buffer.map Task.id, session.outlet.held.map Task.id, routed,
    session.results.buffer.map TaskResult.id⟩

/-- Nobody waits at the channels of a session, nobody is let in after its relay has ended, and the
results that somebody wants can come. -/
structure Session.Unhurried (session : Session) (wanted : Prop) : Prop where
  tasksRoom : session.tasks.capacity = 1
  tasks : session.tasks.pending = []
  resultsRoom : session.results.capacity = 1
  results : session.results.pending = []
  ended : session.relay = .ended → session.tasks.closed = true ∧ session.tasks.buffer = []
  wanted : wanted → session.results.closed = false

namespace Exchange

/-- The tasks whose results are to come to a session. -/
def routedTo (x : Exchange) (s : SessionId) : List TaskId :=
  (x.routes.filter fun route => route.2 == s).map Prod.fst

def traffic (x : Exchange) (s : SessionId) : Traffic :=
  ((x.sessions[s]?).getD .opened).traffic (x.routedTo s)

/-- Each session has at most the given task at the exchange, and no two of them the same.  Of some
sessions the results are wanted. -/
structure Tracked (x : Exchange) (wanted : SessionId → Prop)
    (parcels : SessionId → Option Parcel) : Prop where
  traffic : ∀ s, x.traffic s = .of (parcels s)
  once : ∀ s s' p p', parcels s = some p → parcels s' = some p' → p.id = p'.id → s = s'
  within : ∀ s p, parcels s = some p → s < x.sessions.size
  served : ∀ s, wanted s → s < x.sessions.size
  lost : ∀ s id, parcels s = some ⟨id, .lost⟩ → (x.outlet s).relay = .ended
  unhurried : ∀ (s : SessionId) (session : Session), x.sessions[s]? = some session →
    session.Unhurried (wanted s)

end Exchange

/-! ## Reading the whereabouts off -/

namespace Traffic

variable {p? : Option Parcel} {id : TaskId}

theorem of_channel (h : id ∈ (Traffic.of p?).channel) : p? = some ⟨id, .channel⟩ := by
  rcases p? with _ | ⟨i, _ | _ | _ | _ | _⟩ <;> simp_all [Traffic.of]

theorem of_hand (h : id ∈ (Traffic.of p?).hand) : p? = some ⟨id, .hand⟩ := by
  rcases p? with _ | ⟨i, _ | _ | _ | _ | _⟩ <;> simp_all [Traffic.of]

theorem of_results (h : id ∈ (Traffic.of p?).results) : p? = some ⟨id, .answered⟩ := by
  rcases p? with _ | ⟨i, _ | _ | _ | _ | _⟩ <;> simp_all [Traffic.of]

theorem of_routed (h : id ∈ (Traffic.of p?).routed) :
    p? = some ⟨id, .hand⟩ ∨ p? = some ⟨id, .away⟩ := by
  rcases p? with _ | ⟨i, _ | _ | _ | _ | _⟩ <;> simp_all [Traffic.of]

end Traffic

namespace Exchange

variable {x x' : Exchange} {s s' : SessionId} {session session' : Session} {id : TaskId}
  {wanted : SessionId → Prop} {parcels : SessionId → Option Parcel} {p? : Option Parcel}
  {task : Task}

theorem traffic_eq (hs : x.sessions[s]? = some session) :
    x.traffic s = session.traffic (x.routedTo s) := by
  simp [traffic, hs]

theorem mem_routedTo : id ∈ x.routedTo s ↔ (id, s) ∈ x.routes := by
  simp [routedTo]

theorem routedTo_addRoute (x : Exchange) (id : TaskId) (s s' : SessionId) :
    (x.addRoute id s).routedTo s' =
      ((x.routedTo s').filter fun i => !(i == id)) ++ if s = s' then [id] else [] := by
  by_cases he : s = s'
  · simp [routedTo, addRoute, List.filter_map, List.filter_filter, Function.comp_def,
      Bool.and_comm, he]
  · simp [routedTo, addRoute, List.filter_map, List.filter_filter, Function.comp_def,
      Bool.and_comm, he]

theorem routedTo_removeRoute (x : Exchange) (id : TaskId) (s : SessionId) :
    (x.removeRoute id).routedTo s = (x.routedTo s).filter fun i => !(i == id) := by
  simp [routedTo, removeRoute, List.filter_map, List.filter_filter, Function.comp_def,
    Bool.and_comm]

namespace Tracked

theorem session_eq (h : x.Tracked wanted parcels) (hs : x.sessions[s]? = some session) :
    session.traffic (x.routedTo s) = .of (parcels s) := by
  rw [← traffic_eq hs, h.traffic s]

theorem routedTo_eq (h : x.Tracked wanted parcels) (s : SessionId) :
    x.routedTo s = (Traffic.of (parcels s)).routed :=
  congrArg Traffic.routed (h.traffic s)

/-- A route belongs to the session whose task has the id. -/
theorem not_routed (h : x.Tracked wanted parcels) {p : Parcel} (hp : parcels s = some p)
    (hne : s' ≠ s) : p.id ∉ x.routedTo s' := by
  rw [h.routedTo_eq]
  intro hid
  rcases Traffic.of_routed hid with hp' | hp'
  · exact hne (h.once _ _ _ _ hp' hp rfl)
  · exact hne (h.once _ _ _ _ hp' hp rfl)

theorem filter_routedTo (h : x.Tracked wanted parcels) {p : Parcel} (hp : parcels s = some p)
    (hne : s' ≠ s) : ((x.routedTo s').filter fun i => !(i == p.id)) = x.routedTo s' := by
  refine List.filter_eq_self.mpr fun i hi => ?_
  have hni : i ≠ p.id := fun he => h.not_routed hp hne (he ▸ hi)
  simp [hni]

theorem channel (h : x.Tracked wanted parcels) (hs : x.sessions[s]? = some session)
    {rest : List Task} (hbuffer : session.tasks.buffer = task :: rest) :
    parcels s = some ⟨task.id, .channel⟩ ∧ rest = [] := by
  have hchannel : (Traffic.of (parcels s)).channel = task.id :: rest.map Task.id := by
    rw [← h.session_eq hs, Session.traffic, hbuffer, List.map_cons]
  have hp := Traffic.of_channel (hchannel ▸ List.mem_cons_self)
  rw [hp] at hchannel
  exact ⟨hp, by simpa [Traffic.of] using hchannel⟩

theorem hand (h : x.Tracked wanted parcels) (hs : x.sessions[s]? = some session)
    (hrelay : session.relay = .holding task) : parcels s = some ⟨task.id, .hand⟩ := by
  refine Traffic.of_hand ?_
  rw [← h.session_eq hs]
  simp [Session.traffic, Session.outlet, Outlet.held, hrelay]

theorem results (h : x.Tracked wanted parcels) (hs : x.sessions[s]? = some session)
    {r : TaskResult} {rest : List TaskResult} (hbuffer : session.results.buffer = r :: rest) :
    parcels s = some ⟨r.id, .answered⟩ ∧ rest = [] := by
  have hresults : (Traffic.of (parcels s)).results = r.id :: rest.map TaskResult.id := by
    rw [← h.session_eq hs, Session.traffic, hbuffer, List.map_cons]
  have hp := Traffic.of_results (hresults ▸ List.mem_cons_self)
  rw [hp] at hresults
  exact ⟨hp, by simpa [Traffic.of] using hresults⟩

/-! ## Replacing a part of the exchange -/

/-- The queue and the line do not matter. -/
theorem congr (h : x.Tracked wanted parcels) (hroutes : x'.routes = x.routes)
    (hsessions : x'.sessions = x.sessions) : x'.Tracked wanted parcels := by
  constructor
  · intro s
    rw [← h.traffic s]
    simp [Exchange.traffic, routedTo, hroutes, hsessions]
  · exact h.once
  · rw [hsessions]
    exact h.within
  · rw [hsessions]
    exact h.served
  · intro s id hp
    rw [outlet, hsessions]
    exact h.lost s id hp
  · rw [hsessions]
    exact h.unhurried

/-- The task of a session gets to another place, or is lost; at most its own route changes. -/
theorem replace (h : x.Tracked wanted parcels) (x₁ : Exchange)
    (hsessions : x₁.sessions = x.sessions)
    (hroutes : ∀ s', s' ≠ s → x₁.routedTo s' = x.routedTo s')
    (hs : x.sessions[s]? = some session)
    (htraffic : session'.traffic (x₁.routedTo s) = .of p?)
    (hunhurried : session'.Unhurried (wanted s))
    (hlost : ∀ id, p? = some ⟨id, .lost⟩ → session'.relay = .ended)
    (hnew : ∀ p, p? = some p → ∀ s' p', parcels s' = some p' → p'.id = p.id → s' = s) :
    (x₁.setSession s session').Tracked wanted (Function.update parcels s p?) := by
  have hs₁ : x₁.sessions[s]? = some session := by rwa [hsessions]
  constructor
  · intro s'
    by_cases he : s' = s
    · subst he
      rw [traffic_eq (setSession_self hs₁ session'), Function.update_self]
      exact htraffic
    · have hsame := setSession_ne (x := x₁) session' (Ne.symm he)
      rw [Function.update_of_ne he, ← h.traffic s', Exchange.traffic, hsame, hsessions]
      exact congrArg _ (hroutes s' he)
  · intro s₁ s₂ p₁ p₂ hp₁ hp₂ hid
    by_cases he₁ : s₁ = s
    · by_cases he₂ : s₂ = s
      · exact he₁.trans he₂.symm
      · subst he₁
        rw [Function.update_self] at hp₁
        rw [Function.update_of_ne he₂] at hp₂
        exact (hnew p₁ hp₁ s₂ p₂ hp₂ hid.symm).symm
    · rw [Function.update_of_ne he₁] at hp₁
      by_cases he₂ : s₂ = s
      · subst he₂
        rw [Function.update_self] at hp₂
        exact hnew p₂ hp₂ s₁ p₁ hp₁ hid
      · rw [Function.update_of_ne he₂] at hp₂
        exact h.once s₁ s₂ p₁ p₂ hp₁ hp₂ hid
  · intro s' p hp
    rw [size_setSession, hsessions]
    by_cases he : s' = s
    · subst he
      exact (Array.getElem?_eq_some_iff.mp hs).1
    · rw [Function.update_of_ne he] at hp
      exact h.within s' p hp
  · intro s' hwanted
    rw [size_setSession, hsessions]
    exact h.served s' hwanted
  · intro s' id hp
    rw [outlet_setSession hs₁]
    by_cases he : s' = s
    · subst he
      rw [Function.update_self] at hp ⊢
      exact hlost id hp
    · rw [Function.update_of_ne he] at hp ⊢
      rw [outlet, hsessions]
      exact h.lost s' id hp
  · intro s' found hfound
    rcases setSession_cases hs₁ hfound with ⟨rfl, rfl⟩ | ⟨-, hold⟩
    · exact hunhurried
    · rw [hsessions] at hold
      exact h.unhurried s' found hold

/-- The task of a session keeps its id, wherever it gets to. -/
theorem move (h : x.Tracked wanted parcels) (x₁ : Exchange) (hsessions : x₁.sessions = x.sessions)
    (hroutes : ∀ s', s' ≠ s → x₁.routedTo s' = x.routedTo s')
    (hs : x.sessions[s]? = some session) {place place' : Whereabouts}
    (hp : parcels s = some ⟨id, place⟩)
    (htraffic : session'.traffic (x₁.routedTo s) = .of (some ⟨id, place'⟩))
    (hunhurried : session'.Unhurried (wanted s))
    (hlost : place' = .lost → session'.relay = .ended) :
    (x₁.setSession s session').Tracked wanted (Function.update parcels s (some ⟨id, place'⟩)) := by
  refine h.replace x₁ hsessions hroutes hs htraffic hunhurried ?_ ?_
  · intro i hi
    exact hlost (Parcel.mk.inj (Option.some.inj hi)).2
  · rintro p hsame s' p' hp' hid
    obtain rfl := Option.some.inj hsame
    exact h.once s' s p' _ hp' hp hid

/-- A session is replaced by one with the same task at the same place. -/
theorem keep (h : x.Tracked wanted parcels) (hs : x.sessions[s]? = some session)
    (htasks : session'.tasks.buffer = session.tasks.buffer)
    (hheld : session'.outlet.held = session.outlet.held)
    (hresults : session'.results.buffer = session.results.buffer)
    (hunhurried : session'.Unhurried (wanted s))
    (hrelay : session.relay = .ended → session'.relay = .ended) :
    (x.setSession s session').Tracked wanted parcels := by
  have hsame : session'.traffic (x.routedTo s) = .of (parcels s) := by
    rw [← h.session_eq hs, Session.traffic, Session.traffic, htasks, hheld, hresults]
  have hset := h.replace x rfl (fun _ _ => rfl) hs hsame hunhurried
    (fun id hp => hrelay (by rw [← h.lost s id hp, outlet_eq hs]; rfl))
    fun p hp s' p' hp' hid => h.once s' s p' p hp' hp hid
  rwa [Function.update_eq_self] at hset

end Tracked

/-! ## Sessions -/

@[simp] theorem queue_withdrawSend (x : Exchange) (s : SessionId) (party : Party) :
    (x.withdrawSend s party).queue = x.queue := by
  unfold withdrawSend
  split
  · rfl
  · rfl

@[simp] theorem queue_dropTasks (x : Exchange) (s : SessionId) :
    (x.dropTasks s).queue = x.queue := by
  unfold dropTasks
  split
  · rfl
  · rfl

@[simp] theorem queue_dropResults (x : Exchange) (s : SessionId) :
    (x.dropResults s).queue = x.queue := by
  unfold dropResults
  split
  · rfl
  · rfl

theorem unhurried_opened (wanted : Prop) : Session.opened.Unhurried wanted where
  tasksRoom := rfl
  tasks := rfl
  resultsRoom := rfl
  results := rfl
  ended := nofun
  wanted _ := rfl

theorem tracked_opened (settings : QueueSettings) :
    (opened settings).Tracked (fun _ => False) fun _ => none where
  traffic s := by simp [traffic, Session.traffic, Session.outlet, Outlet.held, opened, routedTo,
    Session.opened, Channel.empty, Traffic.of]
  once := nofun
  within := nofun
  served := nofun
  lost := nofun
  unhurried s session hs := by simp [opened] at hs

namespace Tracked

/-- Fewer results may be wanted. -/
theorem mono (h : x.Tracked wanted parcels) {wanted' : SessionId → Prop}
    (hwanted : ∀ s, wanted' s → wanted s) : x.Tracked wanted' parcels :=
  { h with
    served := fun s hs => h.served s (hwanted s hs)
    unhurried := fun s session hs =>
      { h.unhurried s session hs with
        wanted := fun hw => (h.unhurried s session hs).wanted (hwanted s hw) } }

theorem openSession (h : x.Tracked wanted parcels) {wanted' : SessionId → Prop}
    (hwanted : ∀ s, wanted' s → wanted s ∨ s = x.sessions.size) :
    x.openSession.2.Tracked wanted' parcels := by
  have hsize : x.openSession.2.sessions.size = x.sessions.size + 1 := by
    simp [Exchange.openSession]
  constructor
  · intro s
    have hsame : (x.openSession.2.sessions[s]?).getD .opened = (x.sessions[s]?).getD .opened := by
      by_cases he : s = x.sessions.size
      · subst he
        simp [Exchange.openSession]
      · simp [Exchange.openSession, Array.getElem?_push, he]
    rw [← h.traffic s, Exchange.traffic, hsame]
    rfl
  · exact h.once
  · intro s p hp
    rw [hsize]
    exact Nat.lt_succ_of_lt (h.within s p hp)
  · intro s hs
    rw [hsize]
    rcases hwanted s hs with hs | rfl
    · exact Nat.lt_succ_of_lt (h.served s hs)
    · exact Nat.lt_succ_self _
  · rw [outlet_openSession]
    exact h.lost
  · intro s session hs
    rcases openSession_cases hs with ⟨-, rfl⟩ | hold
    · exact unhurried_opened (wanted' s)
    · have hlt := (Array.getElem?_eq_some_iff.mp hold).1
      exact { h.unhurried s session hold with
        wanted := fun hw => (h.unhurried s session hold).wanted
          ((hwanted s hw).resolve_right (Nat.ne_of_lt hlt)) }

/-- Nobody who sends to a session without a task has to wait. -/
theorem attemptSend? (h : x.Tracked wanted parcels) {party : Party} {sending : Sending}
    (hnone : parcels s = none) (hnew : ∀ s' p, parcels s' = some p → p.id ≠ task.id)
    (hsend : x.attemptSend? s party task = some (sending, x')) :
    x'.queue = x.queue ∧ ((sending = .refused ∧ x'.Tracked wanted parcels) ∨
      (sending = .accepted ∧
        x'.Tracked wanted (Function.update parcels s (some ⟨task.id, .channel⟩)))) := by
  have hsent : x.send s party task = (sending, x') := by
    have hidle : x.isSending s party = false := by
      unfold isSending
      split
      · rfl
      · next session hs =>
        have hpending := (h.unhurried s session hs).tasks
        rw [Channel.pending, List.append_eq_nil_iff] at hpending
        simp [Channel.isPending, Channel.isGranted, hpending.1, hpending.2]
    simpa [Exchange.attemptSend?, hidle] using hsend
  rcases send_cases hsent with ⟨rfl, rfl, -⟩ | ⟨session, tasks, hs, -, hoffer, rfl⟩
  · exact ⟨rfl, .inl ⟨rfl, h⟩⟩
  · refine ⟨rfl, ?_⟩
    have hunhurried := h.unhurried s session hs
    have htraffic := h.session_eq hs
    rw [hnone] at htraffic
    have hempty : session.tasks.buffer = [] := by
      simpa [Session.traffic, Traffic.of] using congrArg Traffic.channel htraffic
    have hpending := hunhurried.tasks
    rw [Channel.pending, List.append_eq_nil_iff] at hpending
    rcases Channel.offer_cases hoffer with ⟨rfl, -, rfl⟩ | ⟨rfl, hopen, rfl⟩ | ⟨rfl, hopen, rfl⟩
    · exact .inl ⟨rfl, h.keep hs rfl rfl rfl hunhurried id⟩
    · refine .inr ⟨rfl, h.replace x rfl (fun _ _ => rfl) hs ?_ ?_ ?_ ?_⟩
      · simp only [Session.traffic, Session.outlet, Outlet.held, Traffic.of, hempty,
          Traffic.mk.injEq] at htraffic ⊢
        exact ⟨by simp, htraffic.2⟩
      · exact { hunhurried with
          ended := fun hended => by
            have hclosed := (hunhurried.ended hended).1
            rw [hopen] at hclosed
            cases hclosed }
      · simp
      · rintro p hp s' p' hp' hid
        obtain rfl := Option.some.inj hp
        exact absurd hid (hnew s' p' hp')
    · -- the channel has a free place, so the offer would have been taken
      have hroom : session.tasks.hasRoom = true := by
        simp [Channel.hasRoom, Channel.occupied, hempty, hpending.1, hpending.2,
          hunhurried.tasksRoom]
      simp [Channel.offer, hopen, hroom] at hoffer

theorem withdrawSend (h : x.Tracked wanted parcels) (s : SessionId) (party : Party) :
    (x.withdrawSend s party).Tracked wanted parcels := by
  unfold Exchange.withdrawSend
  split
  · exact h
  · next session hs =>
    obtain ⟨hbuffer, hpending, hclosed⟩ := session.tasks.withdraw_eq party
    have hunhurried := h.unhurried s session hs
    refine h.keep hs hbuffer rfl rfl ?_ id
    constructor
    · exact (session.tasks.withdraw_places party).1.trans hunhurried.tasksRoom
    · rw [hpending, hunhurried.tasks]
      rfl
    · exact hunhurried.resultsRoom
    · exact hunhurried.results
    · rw [hbuffer, hclosed]
      exact hunhurried.ended
    · exact hunhurried.wanted

theorem dropTasks (h : x.Tracked wanted parcels) (s : SessionId) :
    (x.dropTasks s).Tracked wanted parcels := by
  unfold Exchange.dropTasks
  split
  · exact h
  · next session hs => exact h.keep hs rfl rfl rfl { h.unhurried s session hs with } id

/-- A result that is in a session is lost when its receiving side goes away. -/
theorem dropResults (h : x.Tracked wanted parcels) (hunwanted : ¬wanted s) :
    ∃ p?, (x.dropResults s).Tracked wanted (Function.update parcels s p?) ∧
      (p? = parcels s ∨ p? = none ∧ ∃ id, parcels s = some ⟨id, .answered⟩) := by
  unfold Exchange.dropResults
  split
  · refine ⟨parcels s, ?_, .inl rfl⟩
    rw [Function.update_eq_self]
    exact h
  · next session hs =>
    have hunhurried : Session.Unhurried { session with results := session.results.discard }
        (wanted s) :=
      { h.unhurried s session hs with wanted := fun hw => absurd hw hunwanted }
    cases hbuffer : session.results.buffer with
    | nil =>
        refine ⟨parcels s, ?_, .inl rfl⟩
        rw [Function.update_eq_self]
        exact h.keep hs rfl rfl (by rw [hbuffer]; rfl) hunhurried id
    | cons r rest =>
        obtain ⟨hp, -⟩ := h.results hs hbuffer
        have htraffic := h.session_eq hs
        rw [hp] at htraffic
        refine ⟨none, h.replace x rfl (fun _ _ => rfl) hs ?_ hunhurried nofun nofun,
          .inr ⟨rfl, _, hp⟩⟩
        simp only [Session.traffic, Traffic.of, Traffic.mk.injEq, Session.outlet] at htraffic ⊢
        exact ⟨htraffic.1, htraffic.2.1, htraffic.2.2.1, rfl⟩

end Tracked

/-! ## Relays -/

/-- What a step of the relay of a session makes of the tasks. -/
inductive Forwards (parcels : SessionId → Option Parcel) (s : SessionId) (x x' : Exchange) :
    (SessionId → Option Parcel) → Prop
  | rests (hqueue : x'.queue.buffer = x.queue.buffer) : Forwards parcels s x x' parcels
  | takes {id : TaskId} (hparcel : parcels s = some ⟨id, .channel⟩)
      (hqueue : x'.queue.buffer = x.queue.buffer) :
      Forwards parcels s x x' (Function.update parcels s (some ⟨id, .hand⟩))
  /-- The relay ends and the task is lost. -/
  | loses {id : TaskId}
      (hparcel : parcels s = some ⟨id, .channel⟩ ∨ parcels s = some ⟨id, .hand⟩)
      (hqueue : x'.queue.buffer = x.queue.buffer) :
      Forwards parcels s x x' (Function.update parcels s (some ⟨id, .lost⟩))
  | puts {task : Task} (hparcel : parcels s = some ⟨task.id, .hand⟩)
      (hqueue : x'.queue.buffer = x.queue.buffer ++ [task]) :
      Forwards parcels s x x' (Function.update parcels s (some ⟨task.id, .away⟩))

namespace Tracked

/-- The relay takes the task out of the session's channel and notes its route. -/
theorem takes (h : x.Tracked wanted parcels) (hs : x.sessions[s]? = some session)
    {tasks : Channel Party Task} (htake : session.tasks.take? = some (task, tasks)) :
    parcels s = some ⟨task.id, .channel⟩ ∧
      ((x.addRoute task.id s).setSession s
        { session with tasks, relay := .holding task }).Tracked wanted
          (Function.update parcels s (some ⟨task.id, .hand⟩)) := by
  obtain ⟨hbuffer, hpending, hclosed⟩ := Channel.take?_some htake
  obtain ⟨hp, hrest⟩ := h.channel hs hbuffer
  have hunhurried := h.unhurried s session hs
  refine ⟨hp, h.move (x.addRoute task.id s) rfl ?_ hs hp ?_ ?_ (by simp)⟩
  · intro s' hne
    rw [routedTo_addRoute, if_neg (Ne.symm hne), List.append_nil, h.filter_routedTo hp hne]
  · have htraffic := h.session_eq hs
    rw [hp] at htraffic
    have hrouted : x.routedTo s = [] := congrArg Traffic.routed htraffic
    have hresults : session.results.buffer.map TaskResult.id = [] :=
      congrArg Traffic.results htraffic
    simp [Session.traffic, Session.outlet, Outlet.held, Traffic.of, routedTo_addRoute, hrouted,
      hrest, hresults]
  · constructor
    · exact (Channel.take?_places htake).1.trans hunhurried.tasksRoom
    · exact hpending.trans hunhurried.tasks
    · exact hunhurried.resultsRoom
    · exact hunhurried.results
    · simp
    · exact hunhurried.wanted

theorem unhurried_ended {wanted : Prop} (h : session.Unhurried wanted)
    {tasks : Channel Party Task} (hcapacity : tasks.capacity = session.tasks.capacity)
    (hpending : tasks.pending = session.tasks.pending) :
    Session.Unhurried { session with relay := .ended, tasks := tasks.discard } wanted where
  tasksRoom := hcapacity.trans h.tasksRoom
  tasks := hpending.trans h.tasks
  resultsRoom := h.resultsRoom
  results := h.results
  ended _ := ⟨rfl, rfl⟩
  wanted := h.wanted

/-- A relay ends that has nothing in hand, and a task in the session's channel is lost. -/
theorem ends (h : x.Tracked wanted parcels) (hs : x.sessions[s]? = some session)
    (hrelay : session.relay = .idle) {tasks : Channel Party Task}
    (htasks : tasks = session.tasks ∨ ∃ task, session.tasks.take? = some (task, tasks)) :
    ∃ parcels', Forwards parcels s x (x.endRelay s { session with tasks }) parcels' ∧
      (x.endRelay s { session with tasks }).Tracked wanted parcels' := by
  have hkept : tasks.capacity = session.tasks.capacity ∧
      tasks.pending = session.tasks.pending := by
    rcases htasks with rfl | ⟨task, htake⟩
    · exact ⟨rfl, rfl⟩
    · exact ⟨(Channel.take?_places htake).1, (Channel.take?_some htake).2.1⟩
  have hended := unhurried_ended (h.unhurried s session hs) hkept.1 hkept.2
  have hheld : session.outlet.held = [] := by simp [Session.outlet, Outlet.held, hrelay]
  cases hbuffer : session.tasks.buffer with
  | nil =>
      refine ⟨parcels, .rests rfl, h.keep hs ?_ ?_ rfl hended fun _ => rfl⟩
      · rw [hbuffer]
        rfl
      · rw [hheld]
        rfl
  | cons task rest =>
      obtain ⟨hp, -⟩ := h.channel hs hbuffer
      have htraffic := h.session_eq hs
      rw [hp] at htraffic
      refine ⟨_, .loses (.inl hp) rfl,
        h.move x rfl (fun _ _ => rfl) hs hp ?_ hended fun _ => rfl⟩
      simp only [Session.traffic, Traffic.of, Traffic.mk.injEq, Session.outlet] at htraffic ⊢
      exact ⟨rfl, rfl, htraffic.2.2⟩

/-- All that there is of a session whose relay holds a task. -/
theorem holding (h : x.Tracked wanted parcels) (hs : x.sessions[s]? = some session)
    (hrelay : session.relay = .holding task) :
    session.tasks.buffer = [] ∧ x.routedTo s = [task.id] ∧ session.results.buffer = [] := by
  have htraffic := h.session_eq hs
  rw [h.hand hs hrelay] at htraffic
  simp only [Session.traffic, Traffic.of, Traffic.mk.injEq, List.map_eq_nil_iff] at htraffic
  exact ⟨htraffic.1, htraffic.2.2⟩

/-- The queue refuses the task in a relay's hand, and the relay ends. -/
theorem refuses (h : x.Tracked wanted parcels) (hs : x.sessions[s]? = some session)
    (hrelay : session.relay = .holding task) :
    ((x.removeRoute task.id).endRelay s session).Tracked wanted
      (Function.update parcels s (some ⟨task.id, .lost⟩)) := by
  have hp := h.hand hs hrelay
  obtain ⟨-, hrouted, hresults⟩ := h.holding hs hrelay
  have hgone : (x.removeRoute task.id).routedTo s = [] := by
    rw [routedTo_removeRoute, hrouted]
    simp
  refine h.move (x.removeRoute task.id) rfl ?_ hs hp ?_
    (unhurried_ended (h.unhurried s session hs) rfl rfl) fun _ => rfl
  · intro s' hne
    rw [routedTo_removeRoute, h.filter_routedTo hp hne]
  · simp [Session.traffic, Session.outlet, Outlet.held, Traffic.of, hgone, Channel.discard,
      hresults]

/-- The task in a relay's hand is put into the queue. -/
theorem puts (h : x.Tracked wanted parcels) (hs : x.sessions[s]? = some session)
    (hrelay : session.relay = .holding task) :
    (x.setSession s { session with relay := .idle }).Tracked wanted
      (Function.update parcels s (some ⟨task.id, .away⟩)) := by
  obtain ⟨hchannel, hrouted, hresults⟩ := h.holding hs hrelay
  refine h.move x rfl (fun _ _ => rfl) hs (h.hand hs hrelay) ?_
    { h.unhurried s session hs with ended := nofun } nofun
  simp [Session.traffic, Session.outlet, Outlet.held, Traffic.of, hchannel, hrouted, hresults]

theorem relayStep? (h : x.Tracked wanted parcels) {capacity : Nat} {j : Journal}
    (hmatches : j.Matches capacity x) (hstep : x.relayStep? s = some x') :
    ∃ parcels', Forwards parcels s x x' parcels' ∧ x'.Tracked wanted parcels' := by
  obtain ⟨session, hs, ⟨hrelay, htakes⟩ | ⟨task, hrelay, hputs⟩⟩ := relayStep?_cases hstep
  · rcases relayTakes?_cases htakes with ⟨task, tasks, htake, -, rfl⟩ | ⟨tasks, -, htasks, rfl⟩
    · obtain ⟨hp, htaken⟩ := h.takes hs htake
      exact ⟨_, .takes hp rfl, htaken⟩
    · exact h.ends hs hrelay htasks
  · have hp := h.hand hs hrelay
    have hqueues := hmatches.queues
    have hholding : (x.outlet s).relay = .holding task := by
      rw [outlet_eq hs]
      exact hrelay
    obtain ⟨sending, queue, hattempt, hcases⟩ := relayPuts?_cases hputs
    have hqueued : ({ x with queue } : Exchange).Tracked wanted parcels := h.congr rfl rfl
    rcases Channel.attempt?_cases hqueues.pendingOnce hattempt with
      ⟨rfl, -, -, hbuffer, -⟩ | ⟨-, ⟨rfl, -, hbuffer⟩ | ⟨u, rfl, -, hu, hbuffer⟩⟩
    · obtain rfl : x' = { x with queue } := by simpa using hcases
      exact ⟨parcels, .rests hbuffer, hqueued⟩
    · obtain rfl : x' = ({ x with queue }.removeRoute task.id).endRelay s session := by
        simpa using hcases
      exact ⟨_, .loses (.inr hp) hbuffer, hqueued.refuses hs hrelay⟩
    · -- what is put into a place reserved earlier is the task still in hand
      obtain rfl : u = task := by
        rcases hu with rfl | hu
        · rfl
        · exact Relay.holding.inj ((hqueues.pending s u hu).symm.trans hholding)
      obtain rfl : x' = { x with queue }.setSession s { session with relay := .idle } := by
        simpa using hcases
      exact ⟨_, .puts hp hbuffer, hqueued.puts hs hrelay⟩

end Tracked

/-! ## Results -/

/-- Nothing can come to a session any more: its relay has ended, no route leads to it, and nobody
waits there with a result. -/
def SendersGone (x : Exchange) (s : SessionId) : Prop :=
  (x.outlet s).relay = .ended ∧ (∀ id, (id, s) ∉ x.routes) ∧
    ∀ session, x.sessions[s]? = some session → session.results.pending = []

namespace Tracked

/-- The route of a task that a relay holds or that is away leads to its session. -/
theorem route (h : x.Tracked wanted parcels)
    (hp : parcels s = some ⟨id, .hand⟩ ∨ parcels s = some ⟨id, .away⟩) :
    x.route? id = some s := by
  have hrouted : (id, s) ∈ x.routes := by
    rw [← mem_routedTo, h.routedTo_eq]
    rcases hp with hp | hp <;> simp [hp, Traffic.of]
  obtain ⟨place, hplace⟩ : ∃ place, parcels s = some ⟨id, place⟩ :=
    hp.elim (fun hp => ⟨_, hp⟩) fun hp => ⟨_, hp⟩
  cases hroute : x.route? id with
  | none => exact absurd (List.mem_map_of_mem hrouted) (route?_eq_none.mp hroute)
  | some s' =>
      by_cases he : s' = s
      · rw [he]
      · exact absurd (mem_routedTo.mpr (route?_eq_some hroute)) (h.not_routed hplace he)

/-- A relay has not ended as long as a task is in its session's channel. -/
theorem relay_of_channel (h : x.Tracked wanted parcels)
    (hp : parcels s = some ⟨id, .channel⟩) : (x.outlet s).relay ≠ .ended := by
  obtain ⟨session, hs⟩ : ∃ session, x.sessions[s]? = some session :=
    ⟨_, Array.getElem?_eq_getElem (h.within s _ hp)⟩
  have hchannel := congrArg Traffic.channel (h.session_eq hs)
  rw [outlet_eq hs]
  intro hended
  rw [hp, Session.traffic, ((h.unhurried s session hs).ended hended).2] at hchannel
  cases hchannel

/-- The result of a task that is away comes to its session at once, unless nobody wants it. -/
theorem submit (h : x.Tracked wanted parcels) {r : TaskResult} (hp : parcels s = some ⟨r.id, .away⟩)
    {party : Party} {answer : Submission} (hsubmit : x.submit party r = (answer, x')) :
    x'.queue = x.queue ∧
      ((∃ error, answer = .failed error) ∧ ¬wanted s ∧
          x'.Tracked wanted (Function.update parcels s none) ∨
        answer = .delivered ∧
          x'.Tracked wanted (Function.update parcels s (some ⟨r.id, .answered⟩))) := by
  have hroute := h.route (.inr hp)
  have hothers : ∀ s', s' ≠ s → (x.removeRoute r.id).routedTo s' = x.routedTo s' := by
    intro s' hne
    rw [routedTo_removeRoute, h.filter_routedTo hp hne]
  have hgone : (x.removeRoute r.id).routedTo s = [] := by
    rw [routedTo_removeRoute, h.routedTo_eq, hp]
    simp [Traffic.of]
  rcases submit_cases hsubmit with ⟨hnone, -⟩ | ⟨s', hroute', hcases⟩
  · cases hnone.symm.trans hroute
  · obtain rfl := Option.some.inj (hroute'.symm.trans hroute)
    rcases hcases with ⟨hs, -, -⟩ | ⟨session, sending, results, hs, hoffer, rfl, rfl⟩
    · have hlt := h.within s' _ hp
      simp [hlt] at hs
    · refine ⟨rfl, ?_⟩
      have hunhurried := h.unhurried s' session hs
      have htraffic := h.session_eq hs
      rw [hp] at htraffic
      simp only [Session.traffic, Traffic.of, Traffic.mk.injEq, List.map_eq_nil_iff] at htraffic
      obtain ⟨hchannel, hhand, -, hempty⟩ := htraffic
      have hpending := hunhurried.results
      rw [Channel.pending, List.append_eq_nil_iff] at hpending
      rcases Channel.offer_cases hoffer with
        ⟨rfl, hclosed, rfl⟩ | ⟨rfl, hopen, rfl⟩ | ⟨rfl, hopen, rfl⟩
      · have hunwanted : ¬wanted s' := fun hw => by simp [hunhurried.wanted hw] at hclosed
        refine .inl ⟨⟨_, rfl⟩, hunwanted,
          h.replace (x.removeRoute r.id) rfl hothers hs ?_ hunhurried (by simp) (by simp)⟩
        simp [Session.traffic, Traffic.of, hgone, hchannel, hhand, hempty]
      · refine .inr ⟨rfl,
          h.move (x.removeRoute r.id) rfl hothers hs hp ?_ { hunhurried with } (by simp)⟩
        have hhand' : (session.outlet).held = [] := hhand
        simp only [Session.outlet] at hhand'
        simp [Session.traffic, Traffic.of, hgone, hchannel, hhand', hempty, Session.outlet]
      · -- the session has a free place for the result
        have hroom : session.results.hasRoom = true := by
          simp [Channel.hasRoom, Channel.occupied, hempty, hpending.1, hpending.2,
            hunhurried.resultsRoom]
        simp [Channel.offer, hopen, hroom] at hoffer

/-- Whoever receives a result receives that of the session's task. -/
theorem receive (h : x.Tracked wanted parcels) {r : TaskResult}
    (hreceive : x.receive s = (.result r, x')) :
    parcels s = some ⟨r.id, .answered⟩ ∧ x'.queue = x.queue ∧
      x'.Tracked wanted (Function.update parcels s none) := by
  rcases receive_cases hreceive with ⟨hnone, -⟩ | ⟨session, r', results, hs, he, htake, rfl⟩
  · exact absurd rfl (hnone r)
  · obtain rfl : r = r' := Received.result.inj he
    obtain ⟨hbuffer, hpending, hclosed⟩ := Channel.take?_some htake
    obtain ⟨hp, hrest⟩ := h.results hs hbuffer
    have hunhurried := h.unhurried s session hs
    have htraffic := h.session_eq hs
    rw [hp] at htraffic
    refine ⟨hp, rfl, h.replace x rfl (fun _ _ => rfl) hs ?_ ?_ nofun nofun⟩
    · simp only [Session.traffic, Traffic.of, Traffic.mk.injEq, Session.outlet] at htraffic ⊢
      exact ⟨htraffic.1, htraffic.2.1, htraffic.2.2.1, by simp [hrest]⟩
    · exact { hunhurried with
        resultsRoom := (Channel.take?_places htake).1.trans hunhurried.resultsRoom
        results := hpending.trans hunhurried.results
        wanted := fun hw => hclosed.trans (hunhurried.wanted hw) }

theorem sendersGone (h : x.Tracked wanted parcels) (hp : parcels s = some ⟨id, .lost⟩) :
    x.SendersGone s := by
  refine ⟨h.lost s id hp, ?_, fun session hs => (h.unhurried s session hs).results⟩
  intro i hi
  rw [← mem_routedTo, h.routedTo_eq, hp] at hi
  cases hi

/-- The owner of a session whose task is lost learns that no result can come. -/
theorem receive_disconnected (h : x.Tracked wanted parcels) (hp : parcels s = some ⟨id, .lost⟩) :
    x.receive s = (.disconnected, x) := by
  obtain ⟨hended, hroutes, hpending⟩ := h.sendersGone hp
  unfold Exchange.receive
  cases hs : x.sessions[s]? with
  | none => rfl
  | some session =>
      have hnobody := hpending session hs
      rw [Channel.pending, List.append_eq_nil_iff] at hnobody
      have htraffic := h.session_eq hs
      rw [hp] at htraffic
      have hempty : session.results.buffer = [] := by
        simpa [Session.traffic, Traffic.of] using congrArg Traffic.results htraffic
      have htake : session.results.take? = none := by simp [Channel.take?, hempty]
      have hrelay : session.hasEnded = true := by
        rw [outlet_eq hs] at hended
        change session.relay = .ended at hended
        simp [Session.hasEnded, hended]
      have hunrouted : x.routes.any (fun route => route.2 == s) = false := by
        rw [List.any_eq_false]
        rintro ⟨i, s'⟩ hroute he
        rw [beq_iff_eq] at he
        exact hroutes i (he ▸ hroute)
      simp [htake, canReceive, hrelay, hunrouted, hnobody.1, hnobody.2]

end Tracked

end Exchange

end TaskFarm
