import TaskFarm.Proofs.Farm.Records
import TaskFarm.Proofs.Farm.Timeline

/-!
# What can become of a run

`Strides` lists all that can become of one run in a single move, together with the events that the
timeline notes of it: beginnings, turns, sendings, arrivals, hang-ups and ends.
-/

namespace TaskFarm

open TaskFarm.Expr (Arena)

/-- A run that has just begun. -/
def Run.begun (settings : Settings) (expression : ExpressionId) (arena : Arena)
    (session : SessionId) : Run :=
  ⟨expression, ⟨arena, settings.costs, settings.maxDepth⟩,
    Plan.start ⟨arena, settings.costs, settings.maxDepth⟩, session, .underWay⟩

/-- A progress with which a run is over, and which tells a value only if its walk has found one. -/
def Progress.EndsAt (stage : Stage) : Progress → Prop
  | .underWay => False
  | .ended (.ok _) => ∃ value, stage = .finished (.ok value)
  | .ended (.error _) | .abandoned => True

namespace Farm

/-- What can become of a run in a move, and its events in it. -/
inductive Strides (f : Farm) (r : RunId) : Option Run → List (Nat × Event) → Option Run → Prop
  | rests (run? : Option Run) : Strides f r run? [] run?
  | begins {source : String} {arena : Arena} (hparse : Expr.parse source = .ok arena)
      (expression : ExpressionId) (session : SessionId) :
      Strides f r none [] (some (.begun f.settings expression arena session))
  | turns {run : Run} (hprogress : run.progress = .underWay)
      (hstage : run.walk.stage = .walking) :
      Strides f r (some run) []
        (some { run with walk := run.plan.proceed (f.naming.task f.nextTask) run.walk })
  | sends {run : Run} (hprogress : run.progress = .underWay) {node : Nat} {task : Task}
      (hstage : run.walk.stage = .offering node task) {x : Exchange}
      (hsend : f.exchange.attemptSend? run.session r task = some (.accepted, x)) :
      Strides f r (some run) [(f.now, .sends task)] (some { run with walk := run.walk.accepted })
  | refused {run : Run} (hprogress : run.progress = .underWay) {node : Nat} {task : Task}
      (hstage : run.walk.stage = .offering node task) :
      Strides f r (some run) [] (some { run with walk := run.walk.refused })
  | receives {run : Run} (hprogress : run.progress = .underWay) {node : Nat} {id : TaskId}
      (hstage : run.walk.stage = .awaiting node id) {result : TaskResult} {x : Exchange}
      (hreceive : f.exchange.receive run.session = (.result result, x)) :
      Strides f r (some run) (if result.id = id then [(f.now, .consumes id)] else [])
        (some { run with walk := run.walk.received result })
  | hangsUp {run : Run} (hprogress : run.progress = .underWay) {node : Nat} {id : TaskId}
      (hstage : run.walk.stage = .awaiting node id) :
      Strides f r (some run) [] (some { run with walk := run.walk.hungUp })
  | ends {run : Run} (hprogress : run.progress = .underWay) {progress : Progress}
      (hends : progress.EndsAt run.walk.stage) :
      Strides f r (some run) [] (some { run with progress })

variable {f f' : Farm} {m : Move} {r r' : RunId} {run run' : Run}

/-! ## Where the events are -/

theorem eventsOf_marks_walk (f : Farm) (r : RunId) :
    eventsOf r (f.marks (.walk r)) = (f.event? r).toList.map fun e => (f.now, e) := by
  cases he : f.event? r with
  | none => simp [marks, he]
  | some e => simp [marks, he]

theorem eventsOf_marks_other (f : Farm) (hne : r' ≠ r) :
    eventsOf r' (f.marks (.walk r)) = [] := by
  cases he : f.event? r with
  | none => simp [marks, he]
  | some e => simp [marks, he, eventsOf_ne (Ne.symm hne)]

theorem event?_eq_none (hrun : f.runs[r]? = some run) (hoffering : ∀ node task,
    run.walk.stage ≠ .offering node task) (hawaiting : ∀ node id,
    run.walk.stage ≠ .awaiting node id) : f.event? r = none := by
  simp only [event?, hrun, Option.bind_some]
  split
  · next hstage => exact absurd hstage (hoffering _ _)
  · next hstage => exact absurd hstage (hawaiting _ _)
  · rfl

theorem event?_offering (hrun : f.runs[r]? = some run) (hprogress : run.progress = .underWay)
    {node : Nat} {task : Task} (hstage : run.walk.stage = .offering node task)
    {sending : Sending} {x : Exchange}
    (hsend : f.exchange.attemptSend? run.session r task = some (sending, x)) :
    f.event? r = match sending with
      | .accepted => some (.sends task)
      | _ => none := by
  simp only [event?, hrun, Option.bind_some, Run.isUnderWay, hprogress, hstage, hsend]
  cases sending <;> rfl

theorem event?_awaiting (hrun : f.runs[r]? = some run) (hprogress : run.progress = .underWay)
    {node : Nat} {id : TaskId} (hstage : run.walk.stage = .awaiting node id)
    {received : Received} {x : Exchange}
    (hreceive : f.exchange.receive run.session = (received, x)) :
    f.event? r = match received with
      | .result result => if result.id = id then some (.consumes id) else none
      | _ => none := by
  simp only [event?, hrun, Option.bind_some, Run.isUnderWay, hprogress, hstage, hreceive]
  cases received <;> rfl

/-! ## One move -/

/-- One run gets on, and the others rest. -/
theorem strides_setRun (hrun : f.runs[r]? = some run)
    (hruns : f'.runs = f.runs.setIfInBounds r run')
    (hstrides : f.Strides r (some run) (eventsOf r (f.marks (.walk r))) (some run')) (r' : RunId) :
    f.Strides r' f.runs[r']? (eventsOf r' (f.marks (.walk r))) f'.runs[r']? := by
  have hfound : f'.runs[r']? = if r' = r then some run' else f.runs[r']? := by
    rw [hruns]
    exact setRun_getElem? hrun run' r'
  by_cases he : r' = r
  · subst he
    rw [hfound, if_pos rfl, hrun]
    exact hstrides
  · rw [hfound, if_neg he, eventsOf_marks_other f he]
    exact .rests _

theorem strides_conclude (hrun : f.runs[r]? = some run) (hprogress : run.progress = .underWay)
    {outcome : Except EvalError Float} (hstage : run.walk.stage = .finished outcome)
    (r' : RunId) :
    f.Strides r' f.runs[r']? (eventsOf r' (f.marks (.walk r)))
      (f.conclude r run outcome).runs[r']? := by
  have hnone : eventsOf r (f.marks (.walk r)) = [] := by
    rw [eventsOf_marks_walk, event?_eq_none hrun (by simp [hstage]) (by simp [hstage])]
    rfl
  simp only [conclude]
  split
  · refine strides_setRun hrun rfl ?_ r'
    rw [hnone]
    refine .ends hprogress ?_
    cases outcome with
    | ok value => exact ⟨value, hstage⟩
    | error cause => trivial
  · refine strides_setRun hrun rfl ?_ r'
    rw [hnone]
    exact .ends hprogress trivial

theorem strides_walkStep? (h : f.walkStep? r = some f') (r' : RunId) :
    f.Strides r' f.runs[r']? (eventsOf r' (f.marks (.walk r))) f'.runs[r']? := by
  obtain ⟨run, hrun, hprogress, hwalks⟩ := walkStep?_cases h
  cases hwalks with
  | turns hstage =>
      refine strides_setRun hrun rfl ?_ r'
      rw [eventsOf_marks_walk, event?_eq_none hrun (by simp [hstage]) (by simp [hstage])]
      exact .turns hprogress hstage
  | @sends node task hstage sending x hsend =>
      have hevent := event?_offering hrun hprogress hstage hsend
      cases sending with
      | accepted =>
          refine strides_setRun hrun rfl ?_ r'
          rw [eventsOf_marks_walk, hevent]
          exact .sends hprogress hstage hsend
      | refused =>
          refine strides_setRun hrun rfl ?_ r'
          rw [eventsOf_marks_walk, hevent]
          exact .refused hprogress hstage
      | waiting =>
          have hnone : eventsOf r' (f.marks (.walk r)) = [] := by
            by_cases he : r' = r
            · rw [he, eventsOf_marks_walk, hevent]
              rfl
            · exact eventsOf_marks_other f he
          rw [hnone]
          exact .rests _
  | @receives node id hstage result x hreceive =>
      refine strides_setRun hrun rfl ?_ r'
      rw [eventsOf_marks_walk, event?_awaiting hrun hprogress hstage hreceive]
      have hevents : ((if result.id = id then some (.consumes id) else none : Option Event)
          |>.toList.map fun e => (f.now, e)) =
          if result.id = id then [(f.now, .consumes id)] else [] := by
        split
        · rfl
        · rfl
      simp only [hevents]
      exact .receives hprogress hstage hreceive
  | hangsUp hstage hreceive =>
      refine strides_setRun hrun rfl ?_ r'
      rw [eventsOf_marks_walk, event?_awaiting hrun hprogress hstage hreceive]
      exact .hangsUp hprogress hstage
  | concludes hstage => exact strides_conclude hrun hprogress hstage r'

theorem strides_accept (f : Farm) (source : String) (r : RunId) :
    f.Strides r f.runs[r]? [] (f.accept source).2.runs[r]? := by
  cases haccept : f.accept source with
  | mk result f' =>
      cases accept_cases haccept with
      | begins _ hparse =>
          simp only [beginRun, Array.getElem?_push]
          split
          · next he =>
            rw [he, Array.getElem?_eq_none (Nat.le_refl _)]
            exact .begins hparse f.freshExpression f.exchange.sessions.size
          · exact .rests _
      | refused | unfinished | rejects => exact .rests _

/-- A call that begins a run opens a session for it. -/
theorem accept_ok {source : String} (h : f.accept source = (.ok r, f')) :
    ∃ arena, Expr.parse source = .ok arena ∧ r = f.runs.size ∧
      f'.runs[r]? = some (.begun f.settings f.freshExpression arena f.exchange.sessions.size) ∧
      f'.exchange = f.exchange.openSession.2 ∧ f'.workers = f.workers := by
  cases accept_cases h with
  | begins _ hparse =>
      exact ⟨_, hparse, rfl, by simp [Run.begun, beginRun, Exchange.openSession], rfl, rfl⟩

theorem strides_abandon (f : Farm) (r r' : RunId) :
    f.Strides r' f.runs[r']? [] (f.abandon r).runs[r']? := by
  rcases f.abandon_cases r with hsame | ⟨run, hrun, hprogress, habandon⟩
  · rw [hsame]
    exact .rests _
  · have hfound : (f.abandon r).runs[r']? =
        if r' = r then some { run with progress := .abandoned } else f.runs[r']? := by
      rw [habandon]
      exact setRun_getElem? hrun _ r'
    by_cases he : r' = r
    · subst he
      rw [hfound, if_pos rfl, hrun]
      exact .ends hprogress trivial
    · rw [hfound, if_neg he]
      exact .rests _

/-- What a move means for each run. -/
theorem strides_move? (hmove : f.move? m = some f') (r : RunId) :
    f.Strides r f.runs[r]? (eventsOf r (f.marks m)) f'.runs[r]? := by
  cases m with
  | accept source =>
      rw [← Option.some.inj hmove]
      exact f.strides_accept source r
  | abandon r₀ =>
      rw [← Option.some.inj hmove]
      exact f.strides_abandon r₀ r
  | walk r₀ => exact strides_walkStep? hmove r
  | hire | dismiss | close | relay | work | quit | wait =>
      have hruns : f'.runs = f.runs := runs_of_desk (desk_move? hmove rfl)
      rw [hruns]
      exact .rests _

/-- A run keeps its plan. -/
theorem Strides.plan_eq {events : List (Nat × Event)}
    (h : f.Strides r (some run) events (some run')) : run'.plan = run.plan := by
  cases h <;> rfl

/-- There are no events of a run before it has begun. -/
theorem Strides.events_eq_nil {events : List (Nat × Event)} {run? : Option Run}
    (h : f.Strides r none events run?) : events = [] := by
  cases h <;> rfl

theorem Strides.exists_some {events : List (Nat × Event)} {run? : Option Run}
    (h : f.Strides r (some run) events run?) : ∃ run', run? = some run' := by
  cases h <;> exact ⟨_, rfl⟩

/-- A run that offers a task has done so before, or has just made it. -/
theorem Strides.offering {run? : Option Run} {events : List (Nat × Event)}
    (h : f.Strides r run? events (some run')) (hprogress : run'.progress = .underWay) {node : Nat}
    {task : Task} (hstage : run'.walk.stage = .offering node task) :
    (run? = some run' ∧ events = []) ∨ task.id = f.naming.task f.nextTask := by
  cases h with
  | rests => exact .inl ⟨rfl, rfl⟩
  | begins => cases hstage
  | @turns run _ hwalking =>
      have hmakes := makes_proceed run.plan (f.naming.task f.nextTask) hwalking
      have hoffering : (run.plan.proceed (f.naming.task f.nextTask) run.walk).stage =
          .offering node task := hstage
      rw [hoffering] at hmakes
      exact .inr hmakes
  | sends _ hoffering => simp [Walk.accepted, hoffering] at hstage
  | refused _ hoffering => simp [Walk.refused, hoffering] at hstage
  | @receives run _ node' id hawaiting result =>
      simp only [Walk.received, hawaiting] at hstage
      split at hstage
      · cases hout : result.outcome with
        | ok value => simp [hout] at hstage
        | error cause => simp [hout] at hstage
      · cases hawaiting.symm.trans hstage
  | hangsUp _ hawaiting => simp [Walk.hungUp, hawaiting] at hstage
  | ends _ hends =>
      obtain rfl : _ = Progress.underWay := hprogress
      exact hends.elim

end Farm

end TaskFarm
