import TaskFarm.Simulation.Shift
import TaskFarm.Proofs.Walk.Evaluation
import Mathlib.Data.List.Forall2

/-!
# The timetable of a worker

A worker that has a shift for itself draws the items of the script one by one.  So script and policy
alone say when it fetches: after a task as soon as the task is computed, and after a number of
fetches in a row that brought none as late as the policy wants it.  The timetable is that list of
times.

The worker keeps it whatever the outcomes of its submissions are, and until it is dismissed.
-/

namespace TaskFarm.Simulation

/-! ## The timetable -/

def Supply.task? : Supply → Option Task
  | .task t => some t
  | _ => none

/-- The worker that has fetched the item fetches again later. -/
def Supply.goesOn : Supply → Bool
  | .silence | .breakdown => false
  | _ => true

/-- What the fetch of an index brings; after the script there is nothing. -/
def itemAt (script : List Supply) (n : Nat) : Supply :=
  script.getD n .nothing

/-- How many of the first fetches, counted back from the last one, brought no task. -/
def missesUntil (script : List Supply) : Nat → Nat
  | 0 => 0
  | n + 1 =>
    match itemAt script n with
    | .task _ => 0
    | _ => missesUntil script n + 1

/-- How long after the fetch of an index the next one follows. -/
def spell (policy : RetryPolicy) (script : List Supply) (n : Nat) : Nat :=
  match itemAt script n with
  | .task task => task.cost
  | _ => policy (min (missesUntil script (n + 1)) Worker.maxMisses)

/-- The time of the fetch of an index. -/
def fetchTime (policy : RetryPolicy) (script : List Supply) : Nat → Nat
  | 0 => 0
  | n + 1 => fetchTime policy script n + spell policy script n

/-- The tasks that the first fetches bring, each with the time of its fetch. -/
def tasksDrawn (policy : RetryPolicy) (script : List Supply) (n : Nat) : List (Nat × Task) :=
  (List.range n).filterMap fun i =>
    (itemAt script i).task?.map fun task => (fetchTime policy script i, task)

/-- A result answers a task fetched at a time: it carries the id of the task and what the task comes
to, and it is handed in when the task is computed. -/
structure AnswersTask (drawn : Nat × Task) (u : Submitted) : Prop where
  id : u.result.id = drawn.2.id
  outcome : u.result.outcome = drawn.2.compute
  time : u.time = drawn.1 + drawn.2.cost
  /-- A task that fails before it is computed is answered at the time of the fetch. -/
  atOnce : drawn.2.error.isSome = true ∨ (∃ e, drawn.2.operator = .error e) → u.time = drawn.1
  /-- Every other task is answered its duration later. -/
  later : drawn.2.error = none → ∀ op, drawn.2.operator = .ok op →
    u.time = drawn.1 + drawn.2.duration

variable {policy : RetryPolicy} {script : List Supply} {refuses : Nat → TaskId → Bool} {n m : Nat}
  {task : Task}

theorem itemAt_eq_headD (script : List Supply) (n : Nat) :
    itemAt script n = (script.drop n).headD .nothing := by
  rw [itemAt, List.getD_eq_getElem?_getD, List.headD_eq_head?_getD, List.head?_drop]

theorem missesUntil_succ (h : (itemAt script n).task? = none) :
    missesUntil script (n + 1) = missesUntil script n + 1 := by
  rw [missesUntil]
  split
  · next task hitem =>
    rw [hitem] at h
    cases h
  · rfl

theorem spell_of_task (h : itemAt script n = .task task) : spell policy script n = task.cost := by
  simp [spell, h]

theorem spell_of_miss (h : (itemAt script n).task? = none) :
    spell policy script n = policy (min (missesUntil script n + 1) Worker.maxMisses) := by
  rw [← missesUntil_succ h, spell]
  split
  · next task hitem =>
    rw [hitem] at h
    cases h
  · rfl

theorem fetchTime_mono (h : n ≤ m) : fetchTime policy script n ≤ fetchTime policy script m := by
  induction h with
  | refl => exact Nat.le_refl _
  | step _ ih => exact Nat.le_add_right_of_le ih

theorem tasksDrawn_succ (policy : RetryPolicy) (script : List Supply) (n : Nat) :
    tasksDrawn policy script (n + 1) = tasksDrawn policy script n ++
      ((itemAt script n).task?.map fun task => (fetchTime policy script n, task)).toList := by
  rw [tasksDrawn, tasksDrawn, List.range_succ, List.filterMap_append]
  congr 1

theorem answersTask_result (fetched : Nat) (task : Task) (rejected : Bool) :
    AnswersTask (fetched, task) ⟨fetched + task.cost, task.result, rejected⟩ where
  id := task.id_result
  outcome := task.outcome_result
  time := rfl
  atOnce hfails := by
    change fetched + task.cost = fetched
    unfold Task.cost
    split
    · next herror hop =>
      rcases hfails with hfails | ⟨e, hfails⟩
      · rw [herror] at hfails
        cases hfails
      · cases hop.symm.trans hfails
    · rfl
  later herror op hop := by
    have hcost : task.cost = task.duration := by
      unfold Task.cost
      split
      · rfl
      · next hfails => exact absurd hop (hfails op herror)
    exact congrArg (fetched + ·) hcost

/-- A fixed backoff is never shorter than a millisecond. -/
theorem one_le_policy (b : FixedBackoff) (attempt : Nat) : 1 ≤ b.policy attempt := by
  have hmin : FixedBackoff.millisecond ≤ b.delay attempt := Nat.le_max_right _ _
  refine (Nat.le_div_iff_mul_le (by decide)).mpr ?_
  rw [Nat.one_mul]
  exact Nat.le_add_right_of_le hmin

/-! ## A worker alone on a shift -/

/-- A worker that has a shift for itself. -/
structure Solo where
  worker : Worker
  shift : Shift

inductive Happening where
  /-- The worker makes a step. -/
  | step
  /-- Time passes up to a moment. -/
  | wait (moment : Nat)
  | dismiss

namespace Solo

def opened (policy : RetryPolicy) (script : List Supply) (refuses : Nat → TaskId → Bool) : Solo :=
  ⟨.hired, .opened 1 policy script refuses⟩

def step? (c : Solo) : Option Solo :=
  (c.shift.workerStep? c.worker).map fun (worker, shift) => ⟨worker, shift⟩

/-- Time passes only when the worker cannot go on, and at most up to the time at which it does. -/
def happen? (c : Solo) : Happening → Option Solo
  | .step => c.step?
  | .wait moment =>
    if c.step?.isNone && c.shift.now < moment && c.worker.timer?.all fun time => moment ≤ time then
      some { c with shift.now := moment }
    else
      none
  | .dismiss => some { c with worker := c.worker.dismiss }

def happenings? (c : Solo) : List Happening → Option Solo
  | [] => some c
  | h :: rest => (c.happen? h).bind fun c => c.happenings? rest

end Solo

/-- Where a worker stands that has fetched a number of times, and the task that it has in hand. -/
inductive Stands (policy : RetryPolicy) (script : List Supply) (now : Nat) (w : Worker) :
    Nat → List (Nat × Task) → Prop
  | ready {n : Nat} (hstage : w.occupation = .ready) (hnow : now = fetchTime policy script n)
      (hmisses : w.misses = min (missesUntil script n) Worker.maxMisses)
      (hgoes : ∀ i < n, (itemAt script i).goesOn = true) : Stands policy script now w n []
  | computing {n : Nat} {task : Task}
      (hstage : w.occupation = .computing task (fetchTime policy script (n + 1)))
      (hitem : itemAt script n = .task task) (hnow : now ≤ fetchTime policy script (n + 1))
      (hmisses : w.misses = 0) (hgoes : ∀ i < n, (itemAt script i).goesOn = true) :
      Stands policy script now w (n + 1) [(fetchTime policy script n, task)]
  | pausing {n : Nat} (hstage : w.occupation = .pausing (fetchTime policy script (n + 1)))
      (hnow : now ≤ fetchTime policy script (n + 1))
      (hmisses : w.misses = min (missesUntil script (n + 1)) Worker.maxMisses)
      (hgoes : ∀ i < n + 1, (itemAt script i).goesOn = true)
      (hmiss : (itemAt script n).task? = none) : Stands policy script now w (n + 1) []
  | fetching {n : Nat} (hstage : w.occupation = .fetching) (hitem : itemAt script n = .silence)
      (hgoes : ∀ i < n, (itemAt script i).goesOn = true) : Stands policy script now w (n + 1) []
  | crashed {n : Nat} (hstage : w.occupation = .crashed) (hitem : itemAt script n = .breakdown)
      (hgoes : ∀ i < n, (itemAt script i).goesOn = true) : Stands policy script now w (n + 1) []
  | stopped {n : Nat} (hstage : w.occupation = .stopped) (hdismissed : w.dismissed = true)
      (hgoes : ∀ i, i + 1 < n → (itemAt script i).goesOn = true) : Stands policy script now w n []

namespace Stands

variable {now : Nat} {w : Worker} {inHand : List (Nat × Task)}

theorem goesOn (h : Stands policy script now w n inHand) {i : Nat} (hi : i + 1 < n) :
    (itemAt script i).goesOn = true := by
  cases h with
  | ready _ _ _ hgoes => exact hgoes i (Nat.lt_of_succ_lt hi)
  | computing _ _ _ _ hgoes | fetching _ _ hgoes | crashed _ _ hgoes =>
      exact hgoes i (Nat.lt_of_succ_lt_succ hi)
  | pausing _ _ _ hgoes _ => exact hgoes i (Nat.lt_of_succ_lt hi)
  | stopped _ _ hgoes => exact hgoes i hi

theorem dismiss (h : Stands policy script now w n inHand) :
    Stands policy script now w.dismiss n inHand := by
  cases h with
  | ready hstage hnow hmisses hgoes => exact .ready hstage hnow hmisses hgoes
  | computing hstage hitem hnow hmisses hgoes => exact .computing hstage hitem hnow hmisses hgoes
  | pausing hstage hnow hmisses hgoes hmiss => exact .pausing hstage hnow hmisses hgoes hmiss
  | fetching hstage hitem hgoes => exact .fetching hstage hitem hgoes
  | crashed hstage hitem hgoes => exact .crashed hstage hitem hgoes
  | stopped hstage _ hgoes => exact .stopped hstage rfl hgoes

end Stands

/-- The worker has fetched at its times, what was handed in answers the tasks drawn in their order,
and only the last one may still be in hand. -/
structure OnTime (policy : RetryPolicy) (script : List Supply) (refuses : Nat → TaskId → Bool)
    (c : Solo) : Prop where
  policy_eq : c.shift.policy = policy
  refuses_eq : c.shift.refuses = refuses
  script_eq : c.shift.script = script.drop c.shift.fetches.length
  fetches : c.shift.fetchTimes = (List.range c.shift.fetches.length).map (fetchTime policy script)
  answers : ∃ answered inHand,
    answered ++ inHand = tasksDrawn policy script c.shift.fetches.length ∧
      List.Forall₂ AnswersTask answered c.shift.submissions.reverse ∧
      Stands policy script c.shift.now c.worker c.shift.fetches.length inHand
  refused : ∀ k u, c.shift.submissions.reverse[k]? = some u →
    u.rejected = refuses k u.result.id

/-! ## What happenings keep -/

/-- Everything that a step of a worker can be. -/
theorem workerStep?_cases {s s' : Shift} {w w' : Worker} (h : s.workerStep? w = some (w', s')) :
    (w.dismissed = true ∧ (∀ task doneAt, w.occupation ≠ .computing task doneAt) ∧ w' = w.stop ∧
      s' = s) ∨
    (w.occupation = .ready ∧ w.dismissed = false ∧
      (w', s') = s.fetch { w with occupation := .fetching }) ∨
    (∃ task doneAt, w.occupation = .computing task doneAt ∧ doneAt ≤ s.now ∧
      (w', s') = s.submit w task) ∨
    ∃ wakeAt, w.occupation = .pausing wakeAt ∧ wakeAt ≤ s.now ∧ w' = w.resumed ∧ s' = s := by
  cases hstage : w.occupation with
  | ready =>
      simp only [Shift.workerStep?, hstage, Option.some.injEq] at h
      split at h
      · next hdismissed =>
        cases h
        exact .inl ⟨hdismissed, nofun, rfl, rfl⟩
      · next hstays =>
        have hlook : w.look = { w with occupation := .fetching } := by simp [Worker.look, hstays]
        rw [hlook] at h
        exact .inr (.inl ⟨rfl, Bool.eq_false_iff.mpr hstays, h.symm⟩)
  | fetching =>
      simp only [Shift.workerStep?, hstage] at h
      split at h
      · next hdismissed =>
        cases h
        exact .inl ⟨hdismissed, nofun, rfl, rfl⟩
      · cases h
  | computing task doneAt =>
      simp only [Shift.workerStep?, hstage] at h
      split at h
      · next hdone => exact .inr (.inr (.inl ⟨task, doneAt, rfl, hdone, (Option.some.inj h).symm⟩))
      · cases h
  | pausing wakeAt =>
      simp only [Shift.workerStep?, hstage] at h
      split at h
      · next hdismissed =>
        cases h
        exact .inl ⟨hdismissed, nofun, rfl, rfl⟩
      · split at h
        · next hwakes =>
          cases h
          exact .inr (.inr (.inr ⟨wakeAt, rfl, hwakes, rfl, rfl⟩))
        · cases h
  | submitting | stopped | crashed => simp [Shift.workerStep?, hstage] at h

namespace OnTime

variable {c c' : Solo}

theorem opened (policy : RetryPolicy) (script : List Supply) (refuses : Nat → TaskId → Bool) :
    OnTime policy script refuses (.opened policy script refuses) where
  policy_eq := rfl
  refuses_eq := rfl
  script_eq := rfl
  fetches := rfl
  answers := ⟨[], [], rfl, .nil, .ready rfl rfl rfl nofun⟩
  refused _ _ h := by cases h

/-- The worker goes on, but neither fetches nor hands in anything. -/
theorem moves (h : OnTime policy script refuses c) {w : Worker}
    (hstands : ∀ inHand,
      Stands policy script c.shift.now c.worker c.shift.fetches.length inHand →
      Stands policy script c.shift.now w c.shift.fetches.length inHand) :
    OnTime policy script refuses ⟨w, c.shift⟩ := by
  obtain ⟨answered, inHand, hdrawn, hanswers, hbefore⟩ := h.answers
  exact { h with answers := ⟨answered, inHand, hdrawn, hanswers, hstands inHand hbefore⟩ }

/-- A worker that is ready is so at the time of its next fetch. -/
theorem ready (h : OnTime policy script refuses c) (hready : c.worker.occupation = .ready) :
    c.shift.now = fetchTime policy script c.shift.fetches.length ∧
      c.worker.misses = min (missesUntil script c.shift.fetches.length) Worker.maxMisses ∧
      (∀ i < c.shift.fetches.length, (itemAt script i).goesOn = true) ∧
      List.Forall₂ AnswersTask (tasksDrawn policy script c.shift.fetches.length)
        c.shift.submissions.reverse := by
  obtain ⟨answered, inHand, hdrawn, hanswers, hstands⟩ := h.answers
  generalize c.shift.fetches.length = n at hdrawn hstands ⊢
  cases hstands with
  | ready _ hnow hmisses hgoes =>
      rw [List.append_nil] at hdrawn
      exact ⟨hnow, hmisses, hgoes, hdrawn ▸ hanswers⟩
  | computing hstage | pausing hstage | fetching hstage | crashed hstage | stopped hstage =>
      cases hready.symm.trans hstage

/-- The worker fetches the next item. -/
theorem fetched (h : OnTime policy script refuses c) {w : Worker} {pauses : List (Nat × Nat)}
    (hready : c.worker.occupation = .ready)
    (hstands : Stands policy script c.shift.now w (c.shift.fetches.length + 1)
      ((itemAt script c.shift.fetches.length).task?.map fun task =>
        (fetchTime policy script c.shift.fetches.length, task)).toList) :
    OnTime policy script refuses ⟨w, { c.shift with
      script := c.shift.script.tail
      fetches := c.shift.now :: c.shift.fetches
      pauses }⟩ := by
  obtain ⟨hnow, -, -, hanswers⟩ := h.ready hready
  refine ⟨h.policy_eq, h.refuses_eq, ?_, ?_, ⟨_, _, ?_, hanswers, hstands⟩, h.refused⟩
  · simp [h.script_eq]
  · have hfetches := h.fetches
    simp only [Shift.fetchTimes] at hfetches ⊢
    simp [hfetches, hnow, List.range_succ]
  · exact (tasksDrawn_succ policy script _).symm

theorem fetch (h : OnTime policy script refuses c) (hready : c.worker.occupation = .ready) :
    OnTime policy script refuses
      ⟨(c.shift.fetch { c.worker with occupation := .fetching }).1,
        (c.shift.fetch { c.worker with occupation := .fetching }).2⟩ := by
  obtain ⟨hnow, hmisses, hgoes, -⟩ := h.ready hready
  have hitem : c.shift.script.headD .nothing = itemAt script c.shift.fetches.length := by
    rw [h.script_eq, itemAt_eq_headD]
  have hnext : fetchTime policy script (c.shift.fetches.length + 1) =
      c.shift.now + spell policy script c.shift.fetches.length := by
    rw [fetchTime, hnow]
  have hmissed : (itemAt script c.shift.fetches.length).task? = none →
      (itemAt script c.shift.fetches.length).goesOn = true →
      Stands policy script c.shift.now
        (Worker.missed { c.worker with occupation := .fetching } c.shift.policy c.shift.now)
        (c.shift.fetches.length + 1) [] := by
    intro hmiss hgoesOn
    have hcount : min (c.worker.misses + 1) Worker.maxMisses =
        min (missesUntil script c.shift.fetches.length + 1) Worker.maxMisses := by
      rw [hmisses]
      omega
    refine .pausing ?_ (hnext ▸ Nat.le_add_right _ _) ?_ ?_ hmiss
    · rw [hnext, spell_of_miss hmiss, ← hcount, ← h.policy_eq]
      rfl
    · rw [missesUntil_succ hmiss]
      exact hcount
    · intro i hi
      rcases Nat.lt_succ_iff_lt_or_eq.mp hi with hi | rfl
      · exact hgoes i hi
      · exact hgoesOn
  unfold Shift.fetch
  simp only [hitem]
  cases hdrawn : itemAt script c.shift.fetches.length with
  | task task =>
      have htime : fetchTime policy script (c.shift.fetches.length + 1) =
          c.shift.now + task.cost := by
        rw [hnext, spell_of_task hdrawn]
      refine h.fetched hready ?_
      rw [hdrawn]
      exact .computing (htime ▸ rfl) hdrawn (htime ▸ Nat.le_add_right _ _) rfl hgoes
  | nothing | failure =>
      refine h.fetched hready ?_
      rw [hdrawn] at hmissed ⊢
      exact hmissed rfl rfl
  | silence =>
      refine h.fetched hready ?_
      rw [hdrawn]
      exact .fetching rfl hdrawn hgoes
  | breakdown =>
      refine h.fetched hready ?_
      rw [hdrawn]
      exact .crashed rfl hdrawn hgoes

/-- The worker hands in the result of the task that it has computed. -/
theorem submit (h : OnTime policy script refuses c) {doneAt : Nat}
    (hcomputing : c.worker.occupation = .computing task doneAt) (hdone : doneAt ≤ c.shift.now) :
    OnTime policy script refuses
      ⟨(c.shift.submit c.worker task).1, (c.shift.submit c.worker task).2⟩ := by
  obtain ⟨answered, inHand, hdrawn, hanswers, hstands⟩ := h.answers
  refine ⟨h.policy_eq, h.refuses_eq, h.script_eq, h.fetches, ?_, ?_⟩
  · change ∃ answered inHand, answered ++ inHand = tasksDrawn policy script c.shift.fetches.length ∧
      _ ∧ Stands policy script c.shift.now c.worker.resumed c.shift.fetches.length inHand
    generalize c.shift.fetches.length = n at hdrawn hstands ⊢
    cases hstands with
    | @computing n t hstage hitem hnow hmisses hgoes =>
        obtain ⟨rfl, rfl⟩ := Occupation.computing.inj (hcomputing.symm.trans hstage)
        have htime : c.shift.now = fetchTime policy script (n + 1) := Nat.le_antisymm hnow hdone
        refine ⟨answered ++ [(fetchTime policy script n, task)], [], by simpa using hdrawn, ?_, ?_⟩
        · have hresult := answersTask_result (fetchTime policy script n) task
            (c.shift.refuses c.shift.submissions.length task.id)
          rw [← spell_of_task hitem, ← fetchTime, ← htime] at hresult
          rw [Shift.submit, List.reverse_cons]
          exact List.rel_append hanswers (.cons hresult .nil)
        · refine .ready rfl htime ?_ ?_
          · simp [Worker.resumed, hmisses, missesUntil, hitem]
          · intro i hi
            rcases Nat.lt_succ_iff_lt_or_eq.mp hi with hi | rfl
            · exact hgoes i hi
            · rw [hitem]
              rfl
    | ready hstage | pausing hstage | fetching hstage | crashed hstage | stopped hstage =>
        cases hcomputing.symm.trans hstage
  · intro k u hu
    rw [Shift.submit, List.reverse_cons] at hu
    rw [List.getElem?_append] at hu
    split at hu
    · exact h.refused k u hu
    · next hlast =>
      rw [List.getElem?_singleton] at hu
      split at hu
      · next hzero =>
        cases hu
        have hk : k = c.shift.submissions.length := by
          rw [List.length_reverse] at hlast hzero
          omega
        rw [hk, task.id_result, h.refuses_eq]
      · cases hu

/-- A step of the worker is one of its timetable. -/
theorem step (h : OnTime policy script refuses c) (hstep : c.step? = some c') :
    OnTime policy script refuses c' := by
  obtain ⟨⟨w, s⟩, hworker, rfl⟩ := Option.map_eq_some_iff.mp hstep
  rcases workerStep?_cases hworker with ⟨hdismissed, hidle, rfl, rfl⟩ | ⟨hready, -, heq⟩ |
    ⟨task, doneAt, hcomputing, hdone, heq⟩ | ⟨wakeAt, hpausing, hwakes, rfl, rfl⟩
  · refine h.moves fun inHand hstands => ?_
    have hgoes := fun i => hstands.goesOn (i := i)
    generalize c.shift.fetches.length = n at hstands hgoes ⊢
    cases hstands with
    | computing hstage => exact absurd hstage (hidle _ _)
    | ready | pausing | fetching | crashed | stopped => exact .stopped rfl hdismissed hgoes
  · have hfetched := h.fetch hready
    rw [← heq] at hfetched
    exact hfetched
  · have hsubmitted := h.submit hcomputing hdone
    rw [← heq] at hsubmitted
    exact hsubmitted
  · refine h.moves fun inHand hstands => ?_
    generalize c.shift.fetches.length = n at hstands ⊢
    cases hstands with
    | pausing hstage hnow hmisses hgoes hmiss =>
        obtain rfl := Occupation.pausing.inj (hpausing.symm.trans hstage)
        exact .ready rfl (Nat.le_antisymm hnow hwakes) hmisses hgoes
    | ready hstage | computing hstage | fetching hstage | crashed hstage | stopped hstage =>
        cases hpausing.symm.trans hstage

/-- Time passes while the worker computes or waits, at most up to the end of it. -/
theorem wait (h : OnTime policy script refuses c) {moment : Nat} (hquiet : c.step? = none)
    (htimer : ∀ time, c.worker.timer? = some time → moment ≤ time) :
    OnTime policy script refuses { c with shift.now := moment } := by
  obtain ⟨answered, inHand, hdrawn, hanswers, hstands⟩ := h.answers
  refine ⟨h.policy_eq, h.refuses_eq, h.script_eq, h.fetches,
    ⟨answered, inHand, hdrawn, hanswers, ?_⟩, h.refused⟩
  change Stands policy script moment c.worker c.shift.fetches.length inHand
  generalize c.shift.fetches.length = n at hstands ⊢
  cases hstands with
  | ready hstage =>
      simp [Solo.step?, Shift.workerStep?, hstage] at hquiet
  | computing hstage hitem _ hmisses hgoes =>
      exact .computing hstage hitem (htimer _ (by simp [Worker.timer?, hstage])) hmisses hgoes
  | pausing hstage _ hmisses hgoes hmiss =>
      exact .pausing hstage (htimer _ (by simp [Worker.timer?, hstage])) hmisses hgoes hmiss
  | fetching hstage hitem hgoes => exact .fetching hstage hitem hgoes
  | crashed hstage hitem hgoes => exact .crashed hstage hitem hgoes
  | stopped hstage hdismissed hgoes => exact .stopped hstage hdismissed hgoes

theorem happen (h : OnTime policy script refuses c) {e : Happening} (he : c.happen? e = some c') :
    OnTime policy script refuses c' := by
  cases e with
  | step => exact h.step he
  | dismiss =>
      cases he
      exact h.moves fun inHand hstands => hstands.dismiss
  | wait moment =>
      simp only [Solo.happen?] at he
      split at he
      · next hwaits =>
        cases he
        simp only [Bool.and_eq_true, decide_eq_true_eq, Option.isNone_iff_eq_none,
          Option.all_eq_true] at hwaits
        exact h.wait hwaits.1.1 hwaits.2
      · cases he

theorem happenings (h : OnTime policy script refuses c) {es : List Happening}
    (hes : c.happenings? es = some c') : OnTime policy script refuses c' := by
  induction es generalizing c with
  | nil =>
      cases hes
      exact h
  | cons e rest ih =>
      obtain ⟨next, he, hrest⟩ := Option.bind_eq_some_iff.mp hes
      exact ih (h.happen he) hrest

end OnTime

/-! ## The law of the worker -/

/-- What a worker does that is alone on a shift. -/
structure KeepsTimetable (policy : RetryPolicy) (script : List Supply)
    (refuses : Nat → TaskId → Bool) (c : Solo) : Prop where
  /-- The worker has fetched at the first times of its timetable. -/
  fetches : c.shift.fetchTimes = (List.range c.shift.fetches.length).map (fetchTime policy script)
  /-- It fetches on after tasks and misses only. -/
  goesOn : ∀ n, n + 1 < c.shift.fetches.length → (itemAt script n).goesOn = true
  /-- Each task is answered once, in the order of the fetches; only the last one may still be in
  hand, and is not overdue. -/
  answers : ∃ answered inHand,
    answered ++ inHand = tasksDrawn policy script c.shift.fetches.length ∧
      List.Forall₂ AnswersTask answered c.shift.submissions.reverse ∧ inHand.length ≤ 1 ∧
      ∀ drawn ∈ inHand, c.worker.occupation = .computing drawn.2 (drawn.1 + drawn.2.cost) ∧
        c.shift.now ≤ drawn.1 + drawn.2.cost
  /-- Whether a result is taken depends on nothing but the script of refusals, and nothing above
  depends on it. -/
  refused : ∀ k u, c.shift.submissions.reverse[k]? = some u → u.rejected = refuses k u.result.id
  /-- When the worker cannot go on, it has made every fetch whose time has come. -/
  punctual : c.worker.dismissed = false → c.step? = none → ∀ n,
    (∀ i < n, (itemAt script i).goesOn = true) → fetchTime policy script n ≤ c.shift.now →
    n < c.shift.fetches.length
  /-- A dismissed worker ends, but it computes the task that it has in hand first. -/
  leaves : c.worker.dismissed = true → c.step? = none → c.worker.hasEnded = true ∨
    ∃ task doneAt, c.worker.occupation = .computing task doneAt ∧ c.shift.now < doneAt
  /-- With a fixed backoff, whatever its interval, the next fetch after one that brought no task is
  at least a millisecond away. -/
  spaced : ∀ b : FixedBackoff, policy = b.policy → ∀ n, (itemAt script n).task? = none →
    fetchTime policy script n + 1 ≤ fetchTime policy script (n + 1)

namespace OnTime

variable {c : Solo}

theorem punctual (h : OnTime policy script refuses c) (hstays : c.worker.dismissed = false)
    (hquiet : c.step? = none) (hgoes : ∀ i < n, (itemAt script i).goesOn = true)
    (htime : fetchTime policy script n ≤ c.shift.now) : n < c.shift.fetches.length := by
  obtain ⟨answered, inHand, -, -, hstands⟩ := h.answers
  have hworker : c.shift.workerStep? c.worker = none := by simpa [Solo.step?] using hquiet
  by_contra hlate
  have hle := Nat.le_of_not_lt hlate
  generalize c.shift.fetches.length = k at hstands hle
  cases hstands with
  | ready hstage => simp [Shift.workerStep?, hstage] at hworker
  | computing hstage | pausing hstage =>
      refine absurd (Nat.le_trans (fetchTime_mono hle) htime) (Nat.not_le_of_lt ?_)
      simpa [Shift.workerStep?, hstage, hstays] using hworker
  | fetching _ hitem | crashed _ hitem =>
      have hgoesOn := hgoes _ hle
      rw [hitem] at hgoesOn
      cases hgoesOn
  | stopped _ hdismissed => cases hstays.symm.trans hdismissed

theorem leaves (hdismissed : c.worker.dismissed = true) (hquiet : c.step? = none)
    (h : OnTime policy script refuses c) : c.worker.hasEnded = true ∨
      ∃ task doneAt, c.worker.occupation = .computing task doneAt ∧ c.shift.now < doneAt := by
  obtain ⟨answered, inHand, -, -, hstands⟩ := h.answers
  have hworker : c.shift.workerStep? c.worker = none := by simpa [Solo.step?] using hquiet
  generalize c.shift.fetches.length = n at hstands
  cases hstands with
  | ready hstage => simp [Shift.workerStep?, hstage] at hworker
  | pausing hstage | fetching hstage =>
      simp [Shift.workerStep?, hstage, hdismissed] at hworker
  | computing hstage =>
      exact .inr ⟨_, _, hstage, by simpa [Shift.workerStep?, hstage] using hworker⟩
  | crashed hstage | stopped hstage => exact .inl (by simp [Worker.hasEnded, hstage])

theorem goesOn (h : OnTime policy script refuses c) (hn : n + 1 < c.shift.fetches.length) :
    (itemAt script n).goesOn = true := by
  obtain ⟨_, _, -, -, hstands⟩ := h.answers
  exact hstands.goesOn hn

theorem keepsTimetable (h : OnTime policy script refuses c) :
    KeepsTimetable policy script refuses c where
  fetches := h.fetches
  goesOn _ hn := h.goesOn hn
  answers := by
    obtain ⟨answered, inHand, hdrawn, hanswers, hstands⟩ := h.answers
    refine ⟨answered, inHand, hdrawn, hanswers, ?_⟩
    generalize c.shift.fetches.length = n at hstands
    cases hstands with
    | computing hstage hitem hnow =>
        rw [fetchTime, spell_of_task hitem] at hstage hnow
        refine ⟨Nat.le_refl 1, fun drawn hmem => ?_⟩
        rw [List.mem_singleton.mp hmem]
        exact ⟨hstage, hnow⟩
    | ready | pausing | fetching | crashed | stopped => exact ⟨Nat.zero_le 1, nofun⟩
  refused := h.refused
  punctual hstays hquiet _ hgoes htime := h.punctual hstays hquiet hgoes htime
  leaves hdismissed hquiet := h.leaves hdismissed hquiet
  spaced b hpolicy n hmiss := by
    rw [fetchTime, spell_of_miss hmiss, hpolicy]
    exact Nat.add_le_add_left (one_le_policy b _) _

end OnTime

/-- Whatever happens to a worker that is alone on a shift, it keeps its timetable. -/
theorem happenings?_keepsTimetable {es : List Happening} {c : Solo}
    (h : (Solo.opened policy script refuses).happenings? es = some c) :
    KeepsTimetable policy script refuses c :=
  ((OnTime.opened policy script refuses).happenings h).keepsTimetable

/-- A task that fails at once, two misses, a task that takes its time and is not taken back, and a
last fetch at the end of it; then the worker is dismissed. -/
theorem happenings?_keepsTimetable_mixed :
    ∃ c, (Solo.opened (linearBackoff 10)
        [.task (.make ⟨0⟩ .div 1.0 0.0 9), .nothing, .failure, .task (.make ⟨1⟩ .add 1.0 1.0 5)]
        fun k _ => k == 1).happenings?
          [.step, .step, .step, .wait 10, .step, .step, .wait 30, .step, .step, .wait 33, .wait 35,
            .step, .step, .dismiss, .step] = some c ∧
      c.shift.fetchTimes = [0, 0, 10, 30, 35] ∧
      c.shift.submissions.reverse.map (fun u => (u.time, u.result.id, u.rejected)) =
        [(0, ⟨0⟩, false), (35, ⟨1⟩, true)] ∧
      KeepsTimetable (linearBackoff 10)
        [.task (.make ⟨0⟩ .div 1.0 0.0 9), .nothing, .failure, .task (.make ⟨1⟩ .add 1.0 1.0 5)]
        (fun k _ => k == 1) c := by
  generalize hrun : (Solo.opened _ _ _).happenings? _ = run
  have htimes : ∃ c, run = some c ∧ c.shift.fetchTimes = [0, 0, 10, 30, 35] ∧
      c.shift.submissions.reverse.map (fun u => (u.time, u.result.id, u.rejected)) =
        [(0, ⟨0⟩, false), (35, ⟨1⟩, true)] := by
    subst hrun
    exact ⟨_, rfl, rfl, rfl⟩
  obtain ⟨c, rfl, htimes, hsubmitted⟩ := htimes
  exact ⟨c, rfl, htimes, hsubmitted, happenings?_keepsTimetable hrun⟩

end TaskFarm.Simulation
