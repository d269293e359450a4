import TaskFarm.Proofs.Exchange.Carrying
import TaskFarm.Proofs.Farm.Steps
import TaskFarm.Proofs.Ledger
import TaskFarm.Proofs.Walk.Evaluation

/-!
# Runs come to the values of their trees

The invariant of a farm says that all tasks under way were issued, each under a name of its own,
that all results are those of such tasks, and that each run either leads to the value of its
expression or has come to it.  No run depends on any other: they share neither a session nor a
record.
-/

namespace TaskFarm

open TaskFarm.Expr (Arena OpTree Fault)

theorem Naming.counting_task : Function.Injective Naming.counting.task :=
  fun _ _ => TaskId.mk.inj

theorem Naming.counting_expression : Function.Injective Naming.counting.expression :=
  fun _ _ => ExpressionId.mk.inj

/-- The fault of a tree that the failure of its run reports. -/
def FarmError.fault? : FarmError → Option Fault
  | .evaluation cause => cause.fault?
  | _ => none

/-- The outcome of a run is the value of a tree, or reports its fault. -/
def Agrees : Except FarmError Float → Except Fault Float → Prop
  | .ok value, .ok expected => value = expected
  | .error e, .error fault => e.fault? = some fault
  | _, _ => False

/-- A record says how a run ended. -/
def Record.Notes (record : Record) : Except FarmError Float → Prop
  | .ok value => record.status = .done ∧ record.result = some value
  | .error _ => record.status = .error ∧ record.result = none

/-- How far a run has come, compared with the value of its tree. -/
def Progress.Agrees (plan : Plan) (t : OpTree Nat) (issued : List Task) (walk : Walk)
    (record : Record) : Progress → Prop
  | .underWay => record.status = .processing ∧ walk.Serves plan t issued
  | .ended outcome => TaskFarm.Agrees outcome (t.evaluate plan.maxDepth 0) ∧ record.Notes outcome
  | .abandoned => True

/-- A run evaluates the expression of its record, which is the source that it was begun for. -/
structure Run.Evaluates (settings : Settings) (sources : List String) (issued : List Task)
    (ledger : Ledger) (r : RunId) (run : Run) (record : Record) (t : OpTree Nat) : Prop where
  get?_eq : ledger.get? run.expression = some record
  source_eq : sources[r]? = some record.expression
  parse_eq : Expr.parse record.expression = .ok run.plan.arena
  shows : run.plan.arena.Shows t
  maxDepth_eq : run.plan.maxDepth = settings.maxDepth
  agrees : run.progress.Agrees run.plan t issued run.walk record

theorem Progress.Agrees.mono {plan : Plan} {t : OpTree Nat} {issued issued' : List Task}
    {walk : Walk} {record : Record} {progress : Progress}
    (h : progress.Agrees plan t issued walk record) (hissued : issued ⊆ issued') :
    progress.Agrees plan t issued' walk record := by
  cases progress with
  | underWay => exact ⟨h.1, h.2.mono hissued⟩
  | ended outcome => exact h
  | abandoned => trivial

/-- The invariant of a farm. -/
structure Farm.Sound (naming : Naming) (settings : Settings) (sources : List String)
    (issued : List Task) (f : Farm) : Prop where
  naming_eq : f.naming = naming
  settings_eq : f.settings = settings
  books_eq : f.books = .regular
  isOpen : f.exchange.Open
  carries : f.exchange.Carries (· ∈ issued)
  computing : ∀ worker ∈ f.workers, ∀ task doneAt, worker.occupation = .computing task doneAt →
    task ∈ issued
  issuedOnce : (issued.map Task.id).Nodup
  named : ∀ task ∈ issued, ∃ k < f.nextTask, task.id = naming.task k
  length_eq : sources.length = f.runs.size
  runs : ∀ (r : RunId) (run : Run), f.runs[r]? = some run →
    run.session < f.exchange.sessions.size ∧
      ∃ record t, run.Evaluates settings sources issued f.ledger r record t
  /-- The session of a run under way can be used. -/
  live : ∀ (r : RunId) (run : Run), f.runs[r]? = some run → run.progress = .underWay →
    ∃ session, f.exchange.sessions[run.session]? = some session ∧ session.Live
  /-- No two runs share a session or a record. -/
  apart : ∀ (r r' : RunId) (run run' : Run), f.runs[r]? = some run → f.runs[r']? = some run' →
    r ≠ r' → run.session ≠ run'.session ∧ run.expression ≠ run'.expression

namespace Farm

variable {naming : Naming} {settings : Settings} {sources : List String} {issued : List Task}
  {f : Farm} {r : RunId} {run : Run}

theorem sound_opened (naming : Naming) (settings : Settings) :
    (openedWith naming settings .regular).Sound naming settings [] [] where
  naming_eq := rfl
  settings_eq := rfl
  books_eq := rfl
  isOpen := ⟨rfl, rfl⟩
  carries := Exchange.carries_opened settings.queue _
  computing := by simp [openedWith]
  issuedOnce := List.nodup_nil
  named := nofun
  length_eq := rfl
  runs := by simp [openedWith]
  live := by simp [openedWith]
  apart := by simp [openedWith]

/-! ## Replacing a part of the farm -/

theorem Sound.setExchange (h : f.Sound naming settings sources issued) {x : Exchange}
    (hx : x.Carries (· ∈ issued) ∧ f.exchange.Keeps x) :
    ({ f with exchange := x } : Farm).Sound naming settings sources issued :=
  { h with
    isOpen := hx.2.stays h.isOpen
    carries := hx.1
    runs := fun r run hrun =>
      ⟨Nat.lt_of_lt_of_le (h.runs r run hrun).1 hx.2.size_le, (h.runs r run hrun).2⟩
    live := by
      intro r run hrun hprogress
      obtain ⟨session, hs, hlive⟩ := h.live r run hrun hprogress
      exact hx.2.live h.isOpen _ session hs hlive }

theorem Sound.setLine (h : f.Sound naming settings sources issued) (line : List PendingFetch) :
    ({ f with exchange := { f.exchange with line } } : Farm).Sound naming settings sources issued :=
  h.setExchange ⟨⟨h.carries.queue, h.carries.sessions⟩, Exchange.Keeps.setLine f.exchange line⟩

theorem Sound.setWorkers (h : f.Sound naming settings sources issued) {workers : Array Worker}
    (hworkers : ∀ worker ∈ workers, ∀ task doneAt,
      worker.occupation = .computing task doneAt → task ∈ issued) :
    ({ f with workers } : Farm).Sound naming settings sources issued :=
  { h with computing := hworkers }

theorem Sound.setWorker (h : f.Sound naming settings sources issued) (w : WorkerId)
    (worker : Worker)
    (hworker : ∀ task doneAt, worker.occupation = .computing task doneAt → task ∈ issued) :
    (f.setWorker w worker).Sound naming settings sources issued := by
  refine h.setWorkers fun other hother => ?_
  rcases Array.mem_or_eq_of_mem_setIfInBounds hother with hother | rfl
  · exact h.computing other hother
  · exact hworker

theorem setRun_getElem? (hrun : f.runs[r]? = some run) (run' : Run) (r' : RunId) :
    (f.setRun r run').runs[r']? = if r' = r then some run' else f.runs[r']? := by
  obtain ⟨hlt, -⟩ := Array.getElem?_eq_some_iff.mp hrun
  by_cases he : r' = r
  · subst he
    simp [setRun, hlt]
  · simp [setRun, he, Ne.symm he]

theorem setRun_cases {run' found : Run} {r' : RunId} (hrun : f.runs[r]? = some run)
    (hfound : (f.setRun r run').runs[r']? = some found) :
    (r' = r ∧ found = run') ∨ (r' ≠ r ∧ f.runs[r']? = some found) := by
  rw [setRun_getElem? hrun] at hfound
  by_cases he : r' = r
  · rw [if_pos he] at hfound
    exact .inl ⟨he, (Option.some.inj hfound).symm⟩
  · rw [if_neg he] at hfound
    exact .inr ⟨he, hfound⟩

/-- The runs of a farm at which one has just begun. -/
theorem beginRun_cases {id : ExpressionId} {arena : Arena} {found : Run}
    (hfound : (f.beginRun id arena).2.runs[r]? = some found) :
    (r = f.runs.size ∧ found =
      ⟨id, ⟨arena, f.settings.costs, f.settings.maxDepth⟩,
        Plan.start ⟨arena, f.settings.costs, f.settings.maxDepth⟩, f.exchange.sessions.size,
        .underWay⟩) ∨ f.runs[r]? = some found := by
  simp only [beginRun, Array.getElem?_push] at hfound
  split at hfound
  · next he => exact .inl ⟨he, (Option.some.inj hfound).symm⟩
  · exact .inr hfound

theorem mem_hire {worker : Worker} (hworker : worker ∈ f.hire.workers) :
    worker ∈ f.workers ∨ worker = .hired := by
  rcases Array.mem_append.mp hworker with hold | hnew
  · exact .inl hold
  · exact .inr (Array.mem_replicate.mp hnew).2

/-- Whoever is dismissed goes on with what it does. -/
theorem mem_dismiss {w : WorkerId} {worker : Worker} (hworker : worker ∈ (f.dismiss w).workers) :
    ∃ old ∈ f.workers, worker.occupation = old.occupation := by
  obtain ⟨i, hi⟩ := Array.mem_iff_getElem?.mp hworker
  simp only [dismiss, Array.getElem?_modify] at hi
  split at hi
  · obtain ⟨old, hold, rfl⟩ := Option.map_eq_some_iff.mp hi
    exact ⟨old, Array.mem_of_getElem? hold, rfl⟩
  · exact ⟨worker, Array.mem_of_getElem? hi, rfl⟩

/-- A run goes on with its session and its record, which may be all that changes in the ledger. -/
theorem Sound.setRun (h : f.Sound naming settings sources issued) (hrun : f.runs[r]? = some run)
    (run' : Run) (hsession : run'.session = run.session)
    (hexpression : run'.expression = run.expression)
    (hlive : run'.progress = .underWay → run.progress = .underWay) {ledger : Ledger}
    (hsame : ∀ id, id ≠ run.expression → ledger.get? id = f.ledger.get? id)
    (hevaluates : ∃ record t, run'.Evaluates settings sources issued ledger r record t) :
    (({ f with ledger } : Farm).setRun r run').Sound naming settings sources issued :=
  { h with
    length_eq := h.length_eq.trans Array.size_setIfInBounds.symm
    runs := by
      intro r' found hfound
      rcases setRun_cases (f := { f with ledger }) hrun hfound with ⟨rfl, rfl⟩ | ⟨hne, hold⟩
      · exact ⟨hsession ▸ (h.runs _ run hrun).1, hevaluates⟩
      · obtain ⟨hlt, record, t, hother⟩ := h.runs r' found hold
        have hget := hsame _ (h.apart _ _ _ _ hold hrun hne).2
        exact ⟨hlt, record, t, { hother with get?_eq := hget.trans hother.get?_eq }⟩
    live := by
      intro r' found hfound hprogress
      rcases setRun_cases (f := { f with ledger }) hrun hfound with ⟨rfl, rfl⟩ | ⟨-, hold⟩
      · rw [hsession]
        exact h.live _ run hrun (hlive hprogress)
      · exact h.live r' found hold hprogress
    apart := by
      intro r₁ r₂ run₁ run₂ hrun₁ hrun₂ hne
      rcases setRun_cases (f := { f with ledger }) hrun hrun₁ with ⟨he₁, rfl⟩ | ⟨-, hold₁⟩
      · rcases setRun_cases (f := { f with ledger }) hrun hrun₂ with ⟨he₂, -⟩ | ⟨-, hold₂⟩
        · exact absurd (he₁.trans he₂.symm) hne
        · rw [hsession, hexpression]
          exact h.apart _ _ _ _ hrun hold₂ (he₁ ▸ hne)
      · rcases setRun_cases (f := { f with ledger }) hrun hrun₂ with ⟨he₂, rfl⟩ | ⟨-, hold₂⟩
        · rw [hsession, hexpression]
          exact h.apart _ _ _ _ hold₁ hrun (he₂ ▸ hne)
        · exact h.apart _ _ _ _ hold₁ hold₂ hne }

/-- The walk of a run under way goes on. -/
theorem Sound.setWalk (h : f.Sound naming settings sources issued) (hrun : f.runs[r]? = some run)
    (hprogress : run.progress = .underWay) {record : Record} {t : OpTree Nat}
    (hevaluates : run.Evaluates settings sources issued f.ledger r record t) {walk : Walk}
    (hwalk : walk.Serves run.plan t issued) :
    (f.setWalk r run walk).Sound naming settings sources issued := by
  have hagrees := hevaluates.agrees
  rw [hprogress] at hagrees
  refine h.setRun hrun { run with walk } rfl rfl (fun _ => hprogress) (fun _ _ => rfl)
    ⟨record, t, ?_⟩
  refine { hevaluates with agrees := ?_ }
  rw [hprogress]
  exact ⟨hagrees.1, hwalk⟩

/-- The ledger is replaced by one that says the same of all runs. -/
theorem Sound.setLedger (h : f.Sound naming settings sources issued) {ledger : Ledger}
    (hsame : ∀ (r : RunId) (run : Run), f.runs[r]? = some run →
      ledger.get? run.expression = f.ledger.get? run.expression) :
    ({ f with ledger } : Farm).Sound naming settings sources issued :=
  { h with
    runs := by
      intro r run hrun
      obtain ⟨hlt, record, t, hevaluates⟩ := h.runs r run hrun
      exact ⟨hlt, record, t,
        { hevaluates with get?_eq := (hsame r run hrun).trans hevaluates.get?_eq }⟩ }

/-- A session that no run under way has may be given up. -/
theorem Sound.releaseSession (h : f.Sound naming settings sources issued) {s : SessionId}
    (hfree : ∀ (r : RunId) (run : Run), f.runs[r]? = some run → run.progress = .underWay →
      run.session ≠ s) :
    (f.releaseSession s).Sound naming settings sources issued := by
  have hspares := (f.exchange.spares_dropTasks s).trans (Exchange.spares_dropResults _ s)
  exact { h with
    isOpen := hspares.stays h.isOpen
    carries := Exchange.carries_dropResults (Exchange.carries_dropTasks h.carries s) s
    runs := fun r run hrun => ⟨hspares.size_eq ▸ (h.runs r run hrun).1, (h.runs r run hrun).2⟩
    live := by
      intro r run hrun hprogress
      obtain ⟨session, hs, hlive⟩ := h.live r run hrun hprogress
      exact ⟨session, (hspares.others _ (hfree r run hrun hprogress)).trans hs, hlive⟩ }

/-- A run ends or is abandoned, and its session is given up. -/
theorem Sound.endRun (h : f.Sound naming settings sources issued) (hrun : f.runs[r]? = some run)
    (progress : Progress) (hprogress : progress ≠ .underWay) {ledger : Ledger}
    (hsame : ∀ id, id ≠ run.expression → ledger.get? id = f.ledger.get? id)
    (hevaluates : ∃ record t,
      Run.Evaluates settings sources issued ledger r { run with progress } record t) :
    (({ f.releaseSession run.session with ledger } : Farm).setRun r { run with progress }).Sound
      naming settings sources issued := by
  have hended := h.setRun hrun { run with progress } rfl rfl
    (fun hover => absurd hover hprogress) hsame hevaluates
  refine hended.releaseSession fun r' found hfound hunderWay => ?_
  rcases setRun_cases (f := { f with ledger }) hrun hfound with ⟨-, rfl⟩ | ⟨hne, hold⟩
  · exact absurd hunderWay hprogress
  · exact (h.apart _ _ _ _ hold hrun hne).1

/-! ## Issuing a task -/

theorem Sound.issue (h : f.Sound naming settings sources issued)
    (hinjective : Function.Injective naming.task) {task : Task}
    (htask : task.id = naming.task f.nextTask) :
    ({ f with nextTask := f.nextTask + 1 } : Farm).Sound naming settings sources
      (issued ++ [task]) := by
  have hnew : task.id ∉ issued.map Task.id := by
    intro hid
    obtain ⟨other, hother, he⟩ := List.mem_map.mp hid
    obtain ⟨k, hk, hname⟩ := h.named other hother
    have hnext := hinjective (hname.symm.trans (he.trans htask))
    exact absurd hnext (Nat.ne_of_lt hk)
  have hsubset : issued ⊆ issued ++ [task] := List.subset_append_left _ _
  exact { h with
    carries := h.carries.mono hsubset
    computing := fun worker hworker t doneAt ht =>
      hsubset (h.computing worker hworker t doneAt ht)
    issuedOnce := by
      have hperm : ((issued ++ [task]).map Task.id).Perm (task.id :: issued.map Task.id) := by simp
      exact hperm.nodup_iff.mpr (List.nodup_cons.mpr ⟨hnew, h.issuedOnce⟩)
    named := by
      intro t ht
      rcases List.mem_append.mp ht with ht | ht
      · obtain ⟨k, hk, hname⟩ := h.named t ht
        exact ⟨k, Nat.lt_succ_of_lt hk, hname⟩
      · rw [List.mem_singleton.mp ht]
        exact ⟨f.nextTask, Nat.lt_succ_self _, htask⟩
    runs := by
      intro r run hrun
      obtain ⟨hlt, record, t, hevaluates⟩ := h.runs r run hrun
      exact ⟨hlt, record, t, { hevaluates with agrees := hevaluates.agrees.mono hsubset }⟩ }

end Farm

end TaskFarm
