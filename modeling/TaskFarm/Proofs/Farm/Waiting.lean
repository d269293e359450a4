import TaskFarm.Proofs.Farm.Handover

/-!
# No walk waits for a task that has vanished

The task that a walk waits for is in exactly one place at any time, and its result finds its way to
the walk.  Only when the relay of the walk's session has ended with the task, it is nowhere; then
nobody is left who could send a result, and the walk learns so in its next step.
-/

namespace TaskFarm

/-- Where a task can be between its sending and the taking of its result. -/
inductive Place where
  | channel (s : SessionId)
  /-- With the relay of a session. -/
  | hand (s : SessionId)
  | queue
  | worker (w : WorkerId)
  | results (s : SessionId)

namespace Farm

variable {f : Farm} {parcels : SessionId → Option Parcel} {r : RunId} {run : Run}
  {s : SessionId} {id : TaskId}

/-- The tasks in a place; a result counts as its task. -/
def contents (f : Farm) : Place → List TaskId
  | .channel s => (f.exchange.traffic s).channel
  | .hand s => (f.exchange.traffic s).hand
  | .queue => f.queued
  | .worker w => ((f.workers[w]?).bind fun worker => worker.occupation.task?).toList
  | .results s => (f.exchange.traffic s).results

/-- The result of a task in this place comes to the session, or has come. -/
def LeadsTo (f : Farm) (id : TaskId) (s : SessionId) : Place → Prop
  | .channel s' => s' = s ∧ (f.exchange.outlet s).relay ≠ .ended
  | .hand s' => s' = s ∧ f.exchange.route? id = some s
  | .queue | .worker _ => f.exchange.route? id = some s
  | .results s' => s' = s

/-- The task is in exactly one place, from which its result comes to the session. -/
def HasForSession (f : Farm) (id : TaskId) (s : SessionId) : Prop :=
  ∃ place, f.LeadsTo id s place ∧ ∀ place', id ∈ f.contents place' ↔ place' = place

/-- The task is nowhere, nobody is left to send its result, and the next step of the run that waits
for the result ends its walk. -/
def Misses (f : Farm) (r : RunId) (run : Run) (id : TaskId) : Prop :=
  (∀ place, id ∉ f.contents place) ∧ f.exchange.SendersGone run.session ∧
    f.walkStep? r = some (f.setWalk r run
      { run.walk with stage := .finished (.error (.resultChannelClosed id)) })

/-- No task is in two places, and each task that a run waits for is in one or known to be lost. -/
structure KeepsTasks (f : Farm) : Prop where
  once : ∀ place, (f.contents place).Nodup
  apart : ∀ place place' id, id ∈ f.contents place → id ∈ f.contents place' → place = place'
  awaited : ∀ (r : RunId) (run : Run) (node : Nat) (id : TaskId), f.runs[r]? = some run →
    run.progress = .underWay → run.walk.stage = .awaiting node id →
    f.HasForSession id run.session ∨ f.Misses r run id

/-! ## What custody says of the places -/

/-- The place of a task whose whereabouts are known. -/
inductive Lies (f : Farm) (s : SessionId) (id : TaskId) : Whereabouts → Place → Prop
  | channel : Lies f s id .channel (.channel s)
  | hand : Lies f s id .hand (.hand s)
  | queue (hk : f.Keeps id .queue) : Lies f s id .away .queue
  | worker {w : WorkerId} (hk : f.Keeps id (.worker w)) : Lies f s id .away (.worker w)
  | answered : Lies f s id .answered (.results s)

theorem Custody.lies (h : f.Custody parcels) {place : Place} (hid : id ∈ f.contents place) :
    ∃ s whereabouts, parcels s = some ⟨id, whereabouts⟩ ∧ f.Lies s id whereabouts place := by
  cases place with
  | channel s =>
      simp only [contents, h.tracked.traffic s] at hid
      exact ⟨s, .channel, Traffic.of_channel hid, .channel⟩
  | hand s =>
      simp only [contents, h.tracked.traffic s] at hid
      exact ⟨s, .hand, Traffic.of_hand hid, .hand⟩
  | queue =>
      obtain ⟨s, hp⟩ := (h.kept id).mpr ⟨.queue, hid⟩
      exact ⟨s, .away, hp, .queue hid⟩
  | worker w =>
      have hk : f.Keeps id (.worker w) := Option.mem_toList.mp hid
      obtain ⟨s, hp⟩ := (h.kept id).mpr ⟨.worker w, hk⟩
      exact ⟨s, .away, hp, .worker hk⟩
  | results s =>
      simp only [contents, h.tracked.traffic s] at hid
      exact ⟨s, .answered, Traffic.of_results hid, .answered⟩

/-- Nobody but the session's task has its id. -/
theorem Custody.lies_of_parcel (h : f.Custody parcels) {whereabouts : Whereabouts}
    (hp : parcels s = some ⟨id, whereabouts⟩) {place : Place} (hid : id ∈ f.contents place) :
    f.Lies s id whereabouts place := by
  obtain ⟨s', whereabouts', hp', hlies⟩ := h.lies hid
  obtain rfl := h.tracked.once s s' _ _ hp hp' rfl
  obtain rfl : whereabouts = whereabouts' :=
    (Parcel.mk.inj (Option.some.inj (hp.symm.trans hp'))).2
  exact hlies

theorem Custody.apart (h : f.Custody parcels) {place place' : Place}
    (hid : id ∈ f.contents place) (hid' : id ∈ f.contents place') : place = place' := by
  obtain ⟨s, whereabouts, hp, hlies⟩ := h.lies hid
  have hlies' := h.lies_of_parcel hp hid'
  cases hlies with
  | channel | hand | answered =>
      cases hlies'
      rfl
  | queue hk =>
      cases hlies' with
      | queue => rfl
      | worker hk' => cases h.sole id _ _ hk hk'
  | worker hk =>
      cases hlies' with
      | queue hk' => cases h.sole id _ _ hk hk'
      | worker hk' =>
          cases h.sole id _ _ hk hk'
          rfl

theorem Custody.nodup_contents (h : f.Custody parcels) (place : Place) :
    (f.contents place).Nodup := by
  cases place with
  | channel s | hand s | results s =>
      simp only [contents, h.tracked.traffic s]
      rcases parcels s with _ | ⟨id, _ | _ | _ | _ | _⟩ <;> simp [Traffic.of]
  | queue => exact h.queueOnce
  | worker w => exact Option.toList_nodup _

theorem Custody.hasForSession (h : f.Custody parcels) {place : Place}
    (hid : id ∈ f.contents place) (hleads : f.LeadsTo id s place) : f.HasForSession id s := by
  refine ⟨place, hleads, fun place' => ⟨fun hid' => h.apart hid' hid, ?_⟩⟩
  rintro rfl
  exact hid

/-- A task that is lost is nowhere, and the walk that waits for it is told so. -/
theorem Custody.misses (h : f.Custody parcels) (hrun : f.runs[r]? = some run)
    (hprogress : run.progress = .underWay) {node : Nat}
    (hstage : run.walk.stage = .awaiting node id)
    (hp : parcels run.session = some ⟨id, .lost⟩) : f.Misses r run id := by
  refine ⟨fun place hid => ?_, h.tracked.sendersGone hp, ?_⟩
  · cases h.lies_of_parcel hp hid
  · have hreceive := h.tracked.receive_disconnected hp
    have hunderWay : run.isUnderWay = true := by simp [Run.isUnderWay, hprogress]
    simp [walkStep?, hrun, hunderWay, hstage, hreceive, Walk.hungUp]

theorem Custody.awaited (h : f.Custody parcels) (hrun : f.runs[r]? = some run)
    (hprogress : run.progress = .underWay) {node : Nat}
    (hstage : run.walk.stage = .awaiting node id) :
    f.HasForSession id run.session ∨ f.Misses r run id := by
  have hfits := h.fits r run hrun hprogress
  rw [hstage] at hfits
  obtain ⟨whereabouts, hp⟩ := hfits
  have htraffic := h.tracked.traffic run.session
  rw [hp] at htraffic
  cases whereabouts with
  | channel =>
      have hid : id ∈ f.contents (.channel run.session) := by simp [contents, htraffic, Traffic.of]
      exact .inl (h.hasForSession hid ⟨rfl, h.tracked.relay_of_channel hp⟩)
  | hand =>
      have hid : id ∈ f.contents (.hand run.session) := by simp [contents, htraffic, Traffic.of]
      exact .inl (h.hasForSession hid ⟨rfl, h.tracked.route (.inl hp)⟩)
  | away =>
      have hroute := h.tracked.route (.inr hp)
      obtain ⟨_ | w, hk⟩ := (h.kept id).mp ⟨run.session, hp⟩
      · have hid : id ∈ f.contents .queue := hk
        exact .inl (h.hasForSession hid hroute)
      · have hid : id ∈ f.contents (.worker w) := Option.mem_toList.mpr hk
        exact .inl (h.hasForSession hid hroute)
  | answered =>
      have hid : id ∈ f.contents (.results run.session) := by simp [contents, htraffic, Traffic.of]
      exact .inl (h.hasForSession hid rfl)
  | lost => exact .inr (h.misses hrun hprogress hstage hp)

/-! ## Every history -/

/-- In every history of a farm, with any number of expressions and workers and whenever it is closed
and workers are dismissed, no run waits for a task that is nowhere without learning so in its next
step. -/
theorem play?_keepsTasks {naming : Naming} {settings : Settings} {books : Bookkeeper}
    (hids : Function.Injective naming.task) {moves : List Move}
    (hplay : (openedWith naming settings books).play? moves = some f) : f.KeepsTasks := by
  obtain ⟨parcels, h⟩ := (custody_opened naming settings books).play hids
    (Exchange.inStep_opened settings.queue) hplay
  exact ⟨h.nodup_contents, fun _ _ _ => h.apart,
    fun _ _ _ _ hrun hprogress hstage => h.awaited hrun hprogress hstage⟩

/-- A worker that is to stop has the task of one run when the exchange is closed under another run,
whose relay then ends with the task. -/
theorem play?_keepsTasks_closed :
    ∃ moves f run₀ run₁, (openedWith .counting .standard .regular).play? moves = some f ∧
      f.exchange.closed = true ∧
      (f.runs[0]? = some run₀ ∧ run₀.walk.stage = .awaiting 2 ⟨0⟩ ∧
        f.contents (.worker 0) = [⟨0⟩]) ∧
      (f.runs[1]? = some run₁ ∧ run₁.walk.stage = .awaiting 2 ⟨1⟩ ∧
        (f.exchange.outlet 1).relay = .ended) ∧
      f.KeepsTasks := by
  refine ⟨[.accept "1+2", .hire, .walk 0, .walk 0, .relay 0, .relay 0, .work 0, .work 0, .dismiss 0,
    .accept "4*5", .walk 1, .walk 1, .close, .relay 1], ?f, ?run₀, ?run₁, ?played, ?closed,
    ⟨?found₀, ?awaiting₀, ?working⟩, ⟨?found₁, ?awaiting₁, ?ended⟩,
    play?_keepsTasks Naming.counting_task ?played⟩
  case played => exact rfl
  case closed => exact rfl
  case found₀ => exact rfl
  case awaiting₀ => exact rfl
  case working => exact rfl
  case found₁ => exact rfl
  case awaiting₁ => exact rfl
  case ended => exact rfl

end Farm

end TaskFarm
