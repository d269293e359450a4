import TaskFarm.Proofs.Simulation.Timetable

/-!
# A whole shift of one worker

A shift jumps from timer to timer, and lets its workers go on for a bounded number of steps at each.
If the policy of its only worker always waits for some time, these bounds are never reached, and the
shift is one of the histories of a worker that is alone: so the worker keeps its timetable.
-/

namespace TaskFarm.Simulation

variable {policy : RetryPolicy} {script : List Supply} {refuses : Nat → TaskId → Bool}
  {c c' : Solo}

namespace Solo

/-- The shift with its worker on it. -/
def onShift (c : Solo) : Shift :=
  { c.shift with workers := [c.worker] }

theorem happenings?_append {es es' : List Happening} (h : c.happenings? es = some c') :
    c.happenings? (es ++ es') = c'.happenings? es' := by
  induction es generalizing c with
  | nil =>
      cases h
      rfl
  | cons e rest ih =>
      obtain ⟨next, he, hrest⟩ := Option.bind_eq_some_iff.mp h
      simp [happenings?, he, ih hrest]

/-- A bound on the steps that the worker can still make before it has to wait or has ended. -/
def effort (c : Solo) : Nat :=
  match c.worker.occupation with
  | .ready => 2 * c.shift.script.length + 2
  | .computing _ doneAt => if doneAt ≤ c.shift.now then 2 * c.shift.script.length + 3 else 0
  | .pausing wakeAt =>
    if c.worker.dismissed ∨ wakeAt ≤ c.shift.now then 2 * c.shift.script.length + 3 else 0
  | .fetching => if c.worker.dismissed then 1 else 0
  | _ => 0

theorem effort_le (c : Solo) : c.effort ≤ 2 * c.shift.script.length + 3 := by
  unfold effort
  repeat' split
  all_goals omega

/-- What a step leaves as it is. -/
structure Keeps (c c' : Solo) : Prop where
  now : c'.shift.now = c.shift.now
  policy : c'.shift.policy = c.shift.policy
  dismissed : c'.worker.dismissed = c.worker.dismissed

/-- After a fetch the worker has less to do before it has to wait, if its policy always waits. -/
theorem effort_fetch {s : Shift} {w : Worker} (hfetching : w.occupation = .fetching)
    (hstays : w.dismissed = false) (hwaits : ∀ k, 0 < s.policy k) :
    Keeps ⟨w, s⟩ ⟨(s.fetch w).1, (s.fetch w).2⟩ ∧
      effort ⟨(s.fetch w).1, (s.fetch w).2⟩ < 2 * s.script.length + 2 := by
  have hmissed : ∀ s' : Shift, s'.now = s.now → effort ⟨w.missed s.policy s.now, s'⟩ = 0 := by
    intro s' hnow
    have hlate := hwaits w.nextMiss
    simp [effort, Worker.missed, hstays, hnow]
    omega
  unfold Shift.fetch
  cases hscript : s.script with
  | nil =>
      exact ⟨⟨rfl, rfl, rfl⟩, Nat.lt_of_le_of_lt (Nat.le_of_eq (hmissed _ rfl)) (Nat.succ_pos _)⟩
  | cons item rest =>
      cases item with
      | task task =>
          have hle := effort_le ⟨w.found task s.now,
            { s with script := rest, fetches := s.now :: s.fetches }⟩
          refine ⟨⟨rfl, rfl, rfl⟩, Nat.lt_of_le_of_lt hle ?_⟩
          simp only [List.length_cons]
          omega
      | nothing | failure =>
          exact ⟨⟨rfl, rfl, rfl⟩,
            Nat.lt_of_le_of_lt (Nat.le_of_eq (hmissed _ rfl)) (Nat.succ_pos _)⟩
      | silence =>
          refine ⟨⟨rfl, rfl, rfl⟩, ?_⟩
          simp [effort, hfetching, hstays]
      | breakdown =>
          refine ⟨⟨rfl, rfl, rfl⟩, ?_⟩
          simp [effort, Worker.crash]

/-- A step brings the worker nearer to where it has to wait, if its policy always waits. -/
theorem step?_spec (hstep : c.step? = some c') (hwaits : ∀ k, 0 < c.shift.policy k) :
    c.Keeps c' ∧ c'.effort < c.effort ∧
      (c.worker.dismissed = true →
        ∀ task doneAt, c'.worker.occupation ≠ .computing task doneAt) := by
  obtain ⟨⟨w, s⟩, hworker, rfl⟩ := Option.map_eq_some_iff.mp hstep
  rcases workerStep?_cases hworker with ⟨hdismissed, hidle, rfl, rfl⟩ | ⟨hready, hstays, heq⟩ |
    ⟨task, doneAt, hcomputing, hdone, heq⟩ | ⟨wakeAt, hpausing, hwakes, rfl, rfl⟩
  · refine ⟨⟨rfl, rfl, rfl⟩, ?_, fun _ _ _ hstopped => by cases hstopped⟩
    change 0 < c.effort
    cases hstage : c.worker.occupation with
    | ready => simp [effort, hstage]
    | fetching | pausing => simp [effort, hstage, hdismissed]
    | computing => exact absurd hstage (hidle _ _)
    | submitting | stopped | crashed => simp [Shift.workerStep?, hstage] at hworker
  · have hfetch := effort_fetch (w := { c.worker with occupation := .fetching }) rfl hstays hwaits
    rw [← heq] at hfetch
    refine ⟨⟨hfetch.1.now, hfetch.1.policy, hfetch.1.dismissed⟩, ?_, fun hdismissed => ?_⟩
    · rw [effort.eq_def c, hready]
      exact hfetch.2
    · cases hstays.symm.trans hdismissed
  · cases heq
    refine ⟨⟨rfl, rfl, rfl⟩, ?_, fun _ _ _ hready => by cases hready⟩
    simp [effort, hcomputing, hdone, Worker.resumed]
  · refine ⟨⟨rfl, rfl, rfl⟩, ?_, fun _ _ _ hready => by cases hready⟩
    simp [effort, hpausing, hwakes, Worker.resumed]

/-! ## Going on until the worker has to wait -/

/-- A worker takes no notice of who is on the shift. -/
theorem workerStep?_staff (s : Shift) (w : Worker) (workers : List Worker) :
    ({ s with workers } : Shift).workerStep? w =
      (s.workerStep? w).map fun (w, s) => (w, { s with workers }) := by
  have hfetch : ∀ w, ({ s with workers } : Shift).fetch w =
      ((s.fetch w).1, { (s.fetch w).2 with workers }) := by
    intro w
    unfold Shift.fetch
    simp only
    cases s.script.headD .nothing <;> rfl
  unfold Shift.workerStep?
  cases w.occupation with
  | ready =>
      simp only [hfetch]
      split <;> rfl
  | fetching | computing =>
      simp only
      split <;> rfl
  | pausing =>
      simp only
      split
      · rfl
      · split <;> rfl
  | submitting | stopped | crashed => rfl

/-- A worker gets to where it has to wait or has ended.  It does not take up a task on the way if it
is dismissed. -/
structure Settles (c c' : Solo) : Prop where
  history : ∃ es, c.happenings? es = some c'
  quiet : c'.step? = none
  keeps : c.Keeps c'
  idle : c' = c ∨ (c.worker.dismissed = true →
    ∀ task doneAt, c'.worker.occupation ≠ .computing task doneAt)

theorem settles_self (hquiet : c.step? = none) : c.Settles c :=
  ⟨⟨[], rfl⟩, hquiet, ⟨rfl, rfl, rfl⟩, .inl rfl⟩

theorem Settles.after_step {c'' : Solo} (h : c'.Settles c'') (hstep : c.step? = some c')
    (hwaits : ∀ k, 0 < c.shift.policy k) : c.Settles c'' := by
  obtain ⟨hkeeps, -, hidle⟩ := step?_spec hstep hwaits
  obtain ⟨es, hes⟩ := h.history
  refine ⟨⟨.step :: es, ?_⟩, h.quiet, ?_, .inr fun hdismissed => ?_⟩
  · simp [happenings?, happen?, hstep, hes]
  · exact ⟨h.keeps.now.trans hkeeps.now, h.keeps.policy.trans hkeeps.policy,
      h.keeps.dismissed.trans hkeeps.dismissed⟩
  · rcases h.idle with rfl | hafter
    · exact hidle hdismissed
    · exact hafter (hkeeps.dismissed.trans hdismissed)

theorem exists_settles_settleBy (hwaits : ∀ k, 0 < c.shift.policy k) {fuel : Nat}
    (hfuel : c.effort ≤ fuel) (workers : List Worker) :
    ∃ c', c.Settles c' ∧ settleBy (fun (w, s) => s.workerStep? w) fuel
      (c.worker, { c.shift with workers }) = (c'.worker, { c'.shift with workers }) := by
  induction fuel generalizing c with
  | zero =>
      refine ⟨c, settles_self (Option.eq_none_iff_forall_ne_some.mpr fun c' hstep => ?_), rfl⟩
      exact absurd (step?_spec hstep hwaits).2.1 (by omega)
  | succ fuel ih =>
      cases hworker : c.shift.workerStep? c.worker with
      | none =>
          refine ⟨c, settles_self (by simp [step?, hworker]), ?_⟩
          simp [settleBy, workerStep?_staff, hworker]
      | some next =>
          obtain ⟨w, s⟩ := next
          have hstep : c.step? = some ⟨w, s⟩ := by simp [step?, hworker]
          obtain ⟨hkeeps, hless, -⟩ := step?_spec hstep hwaits
          obtain ⟨c', hsettles, heq⟩ := ih (c := ⟨w, s⟩) (hkeeps.policy ▸ hwaits) (by omega)
          refine ⟨c', hsettles.after_step hstep hwaits, ?_⟩
          simpa [settleBy, workerStep?_staff, hworker] using heq

/-- Settling a shift with one worker lets this worker go on as far as it can. -/
theorem exists_settles_settle (hwaits : ∀ k, 0 < c.shift.policy k) :
    ∃ c', c.Settles c' ∧ c.onShift.settle = c'.onShift := by
  cases hworker : c.shift.workerStep? c.worker with
  | none =>
      refine ⟨c, settles_self (by simp [step?, hworker]), ?_⟩
      simp [Shift.settle, Shift.turns, onShift, workerStep?_staff, hworker]
  | some next =>
      obtain ⟨w, s⟩ := next
      have hstep : c.step? = some ⟨w, s⟩ := by simp [step?, hworker]
      obtain ⟨hkeeps, -, -⟩ := step?_spec hstep hwaits
      have hpatience : effort ⟨w, s⟩ ≤ s.patience :=
        Nat.le_trans (effort_le ⟨w, s⟩) (Nat.le_succ _)
      obtain ⟨c', hsettles, heq⟩ := exists_settles_settleBy (c := ⟨w, s⟩) (hkeeps.policy ▸ hwaits)
        hpatience [c.worker]
      refine ⟨c', hsettles.after_step hstep hwaits, ?_⟩
      have hturns : c.onShift.turns [c.worker] =
          ([], [c'.worker], { c'.shift with workers := [c.worker] }) := by
        simp only [Shift.turns, onShift, workerStep?_staff, hworker, Option.map_some]
        rw [show ({ s with workers := [c.worker] } : Shift).patience = s.patience from rfl, heq]
      rw [Shift.settle, show c.onShift.workers = [c.worker] from rfl, hturns]
      rfl

/-! ## Letting time pass -/

/-- The same worker at another moment. -/
def atMoment (c : Solo) (moment : Nat) : Solo :=
  { c with shift.now := moment }

theorem nextTimer?_onShift (c : Solo) : c.onShift.nextTimer? = c.worker.timer? := by
  simp only [Shift.nextTimer?, onShift, List.map_cons, List.map_nil, List.foldl_cons,
    List.foldl_nil]
  cases c.worker.timer? <;> rfl

/-- A worker that cannot go on waits for a timer in the future. -/
theorem now_lt_of_timer? (hquiet : c.step? = none) {time : Nat}
    (htimer : c.worker.timer? = some time) : c.shift.now < time := by
  have hworker : c.shift.workerStep? c.worker = none := by simpa [step?] using hquiet
  cases hstage : c.worker.occupation with
  | computing =>
      obtain rfl : _ = time := by simpa [Worker.timer?, hstage] using htimer
      simpa [Shift.workerStep?, hstage] using hworker
  | pausing =>
      obtain rfl : _ = time := by simpa [Worker.timer?, hstage] using htimer
      simp only [Shift.workerStep?, hstage] at hworker
      split at hworker
      · cases hworker
      · simpa using hworker
  | ready | fetching | submitting | stopped | crashed => simp [Worker.timer?, hstage] at htimer

/-- Nor does it go on before that time. -/
theorem step?_atMoment (hquiet : c.step? = none) {moment : Nat}
    (htimer : ∀ time, c.worker.timer? = some time → moment < time) :
    (c.atMoment moment).step? = none := by
  have hworker : c.shift.workerStep? c.worker = none := by simpa [step?] using hquiet
  suffices h : (c.atMoment moment).shift.workerStep? c.worker = none by
    simpa [step?, atMoment] using h
  cases hstage : c.worker.occupation with
  | computing =>
      have hlate := htimer _ (by simp [Worker.timer?, hstage]; rfl)
      simp [Shift.workerStep?, hstage, atMoment, Nat.not_le_of_lt hlate]
  | pausing =>
      have hlate := htimer _ (by simp [Worker.timer?, hstage]; rfl)
      simp only [Shift.workerStep?, hstage] at hworker ⊢
      split at hworker
      · cases hworker
      · next hstays => simp [hstays, atMoment, Nat.not_le_of_lt hlate]
  | ready => simp [Shift.workerStep?, hstage] at hworker
  | fetching => simpa [Shift.workerStep?, hstage] using hworker
  | submitting | stopped | crashed => simp [Shift.workerStep?, hstage]

theorem exists_happenings_atMoment (hquiet : c.step? = none) {moment : Nat}
    (hle : c.shift.now ≤ moment) (htimer : ∀ time, c.worker.timer? = some time → moment ≤ time) :
    ∃ es, c.happenings? es = some (c.atMoment moment) := by
  rcases Nat.eq_or_lt_of_le hle with rfl | hlt
  · exact ⟨[], rfl⟩
  · refine ⟨[.wait moment], ?_⟩
    have hwaits : (c.step?.isNone && decide (c.shift.now < moment) &&
        c.worker.timer?.all fun time => moment ≤ time) = true := by
      simpa [hquiet, hlt, Option.all_eq_true] using htimer
    simp only [happenings?, happen?, hwaits, if_true]
    rfl

/-- The worker of a shift that goes on to a moment has come there, and cannot go on. -/
theorem exists_workUntil (moment fuel : Nat) (hwaits : ∀ k, 0 < c.shift.policy k)
    (hquiet : c.step? = none) (hle : c.shift.now ≤ moment) (hfuel : moment - c.shift.now < fuel) :
    ∃ es c', c.happenings? es = some c' ∧ c'.step? = none ∧
      (∀ k, 0 < c'.shift.policy k) ∧ Shift.workUntil moment fuel c.onShift = c'.onShift := by
  induction fuel generalizing c with
  | zero => omega
  | succ fuel ih =>
      have hends : (∀ time, c.worker.timer? = some time → moment < time) →
          ∃ es, c.happenings? es = some (c.atMoment moment) ∧ (c.atMoment moment).step? = none :=
        fun htimer => by
          obtain ⟨es, hes⟩ := exists_happenings_atMoment hquiet hle fun time h =>
            Nat.le_of_lt (htimer time h)
          exact ⟨es, hes, step?_atMoment hquiet htimer⟩
      rw [Shift.workUntil, nextTimer?_onShift]
      cases htimer : c.worker.timer? with
      | none =>
          obtain ⟨es, hes, hrests⟩ := hends (by simp [htimer])
          exact ⟨es, _, hes, hrests, hwaits, rfl⟩
      | some time =>
          have hlater := now_lt_of_timer? hquiet htimer
          by_cases htime : time ≤ moment
          · obtain ⟨es, hes⟩ := exists_happenings_atMoment hquiet (Nat.le_of_lt hlater)
              (by simp [htimer])
            obtain ⟨c₁, hsettles, heq⟩ := exists_settles_settle (c := c.atMoment time) hwaits
            obtain ⟨es₁, hes₁⟩ := hsettles.history
            have hnow : c₁.shift.now = time := hsettles.keeps.now
            obtain ⟨es₂, c₂, hes₂, hrest⟩ := ih (c := c₁) (hsettles.keeps.policy ▸ hwaits)
              hsettles.quiet (hnow ▸ htime) (by omega)
            refine ⟨es ++ (es₁ ++ es₂), c₂, ?_, hrest.1, hrest.2.1, ?_⟩
            · rw [happenings?_append hes, happenings?_append hes₁, hes₂]
            · simp only [htime, if_true]
              change Shift.workUntil moment fuel (c.atMoment time).onShift.settle = _
              rw [heq]
              exact hrest.2.2
          · obtain ⟨es, hes, hrests⟩ := hends (by simpa [htimer] using htime)
            refine ⟨es, _, hes, hrests, hwaits, ?_⟩
            simp only [htime, if_false]
            rfl

/-- The dismissed worker of a shift finishes the task that it has in hand, and then it has ended. -/
theorem exists_finish (hwaits : ∀ k, 0 < c.shift.policy k) (hquiet : c.step? = none)
    (hdismissed : c.worker.dismissed = true) (honTime : OnTime policy script refuses c) :
    ∃ es c', c.happenings? es = some c' ∧ c'.worker.hasEnded = true ∧
      Shift.finish 1 c.onShift = c'.onShift := by
  rw [Shift.finish, nextTimer?_onShift]
  rcases honTime.leaves hdismissed hquiet with hended | ⟨task, doneAt, hstage, hlater⟩
  · have htimer : c.worker.timer? = none := by
      cases hstage : c.worker.occupation with
      | stopped | crashed => simp [Worker.timer?, hstage]
      | ready | fetching | computing | submitting | pausing =>
          simp [Worker.hasEnded, hstage] at hended
    rw [htimer]
    exact ⟨[], c, rfl, hended, rfl⟩
  · have htimer : c.worker.timer? = some doneAt := by simp [Worker.timer?, hstage]
    rw [htimer]
    obtain ⟨es, hes⟩ := exists_happenings_atMoment hquiet (Nat.le_of_lt hlater) (by simp [htimer])
    obtain ⟨c₁, hsettles, heq⟩ := exists_settles_settle (c := c.atMoment doneAt) hwaits
    obtain ⟨es₁, hes₁⟩ := hsettles.history
    refine ⟨es ++ es₁, c₁, by rw [happenings?_append hes, hes₁], ?_, ?_⟩
    · have honTime₁ := (honTime.happenings hes).happenings hes₁
      have hdismissed₁ : c₁.worker.dismissed = true := hsettles.keeps.dismissed.trans hdismissed
      rcases honTime₁.leaves hdismissed₁ hsettles.quiet with hended | ⟨task', doneAt', hstage', -⟩
      · exact hended
      · rcases hsettles.idle with rfl | hidle
        · have hquiet' := hsettles.quiet
          simp [step?, Shift.workerStep?, atMoment, hstage] at hquiet'
        · exact absurd hstage' (hidle hdismissed _ _)
    · exact heq

/-- A whole shift with one worker is a history of this worker: it goes on to the end of the shift,
is dismissed and ends. -/
theorem exists_happenings_run (hwaits : ∀ k, 0 < policy k) (script : List Supply)
    (refuses : Nat → TaskId → Bool) (duration : Nat) :
    ∃ es c, (opened policy script refuses).happenings? es = some c ∧ c.worker.hasEnded = true ∧
      (Shift.opened 1 policy script refuses).run duration = c.onShift := by
  obtain ⟨c₁, hsettles₁, heq₁⟩ := exists_settles_settle (c := opened policy script refuses) hwaits
  obtain ⟨es₁, hes₁⟩ := hsettles₁.history
  have hnow : c₁.shift.now = 0 := hsettles₁.keeps.now
  obtain ⟨es₂, c₂, hes₂, -, hwaits₂, heq₂⟩ := exists_workUntil duration (duration + 1)
    (hsettles₁.keeps.policy ▸ hwaits) hsettles₁.quiet (by omega) (by omega)
  obtain ⟨c₃, hsettles₃, heq₃⟩ := exists_settles_settle (c := ⟨c₂.worker.dismiss, c₂.shift⟩) hwaits₂
  obtain ⟨es₃, hes₃⟩ := hsettles₃.history
  have hhistory : (opened policy script refuses).happenings?
      (es₁ ++ (es₂ ++ (.dismiss :: es₃))) = some c₃ := by
    rw [happenings?_append hes₁, happenings?_append hes₂]
    exact hes₃
  obtain ⟨es₄, c₄, hes₄, hended, heq₄⟩ := exists_finish (hsettles₃.keeps.policy ▸ hwaits₂)
    hsettles₃.quiet hsettles₃.keeps.dismissed
    ((OnTime.opened policy script refuses).happenings hhistory)
  refine ⟨_, c₄, (happenings?_append hhistory).trans hes₄, hended, ?_⟩
  rw [← heq₄, ← heq₃]
  have hbegins : (Shift.opened 1 policy script refuses).settle = c₁.onShift := heq₁
  rw [Shift.run, hbegins, heq₂]
  rfl

end Solo

/-- The only worker of a whole shift keeps its timetable, and has ended in the end. -/
theorem run_keepsTimetable (hwaits : ∀ k, 0 < policy k) (script : List Supply)
    (refuses : Nat → TaskId → Bool) (duration : Nat) :
    ∃ c, (Shift.opened 1 policy script refuses).run duration = c.onShift ∧
      c.worker.hasEnded = true ∧ KeepsTimetable policy script refuses c := by
  obtain ⟨es, c, hes, hended, hrun⟩ := Solo.exists_happenings_run hwaits script refuses duration
  exact ⟨c, hrun, hended, ((OnTime.opened policy script refuses).happenings hes).keepsTimetable⟩

end TaskFarm.Simulation
