import TaskFarm.Proofs.Farm.Sound

/-!
# Every run ends with the value of its expression

However the moves of walks, relays, workers and the clock are mixed, a run that ends while nobody
closes the exchange has come to what plain recursion makes of its own expression.  Each move keeps
the invariant, a turn of a walk with one more issued task.
-/

namespace TaskFarm

open TaskFarm.Expr (Arena OpTree Fault)

namespace Farm

variable {naming : Naming} {settings : Settings} {sources : List String} {issued : List Task}
  {f f' : Farm} {r : RunId} {run : Run}

/-! ## Walks -/

theorem Sound.underWay (h : f.Sound naming settings sources issued)
    (hrun : f.runs[r]? = some run) (hprogress : run.progress = .underWay) :
    ∃ record t, run.Evaluates settings sources issued f.ledger r record t ∧
      record.status = .processing ∧ run.walk.Serves run.plan t issued := by
  obtain ⟨-, record, t, hevaluates⟩ := h.runs r run hrun
  have hagrees := hevaluates.agrees
  rw [hprogress] at hagrees
  exact ⟨record, t, hevaluates, hagrees.1, hagrees.2⟩

theorem Sound.turn (h : f.Sound naming settings sources issued)
    (hinjective : Function.Injective naming.task) (hrun : f.runs[r]? = some run)
    (hprogress : run.progress = .underWay) (hstage : run.walk.stage = .walking) :
    ∃ issued', (({ f with nextTask := f.nextTask + 1 } : Farm).setWalk r run
      (run.plan.proceed (f.naming.task f.nextTask) run.walk)).Sound naming settings sources
        issued' := by
  obtain ⟨record, t, hevaluates, -, hserves⟩ := h.underWay hrun hprogress
  rcases hserves.turn hevaluates.shows hstage (f.naming.task f.nextTask) with
    hnext | ⟨task, hid, hnext⟩
  · have hskipped : ({ f with nextTask := f.nextTask + 1 } : Farm).Sound naming settings sources
        issued :=
      { h with
        named := fun task htask => by
          obtain ⟨k, hk, hname⟩ := h.named task htask
          exact ⟨k, Nat.lt_succ_of_lt hk, hname⟩ }
    exact ⟨issued, hskipped.setWalk hrun hprogress hevaluates hnext⟩
  · rw [h.naming_eq] at hid
    have hissued := h.issue hinjective hid
    have hsubset : issued ⊆ issued ++ [task] := List.subset_append_left _ _
    have hevaluates' : run.Evaluates settings sources (issued ++ [task]) f.ledger r record t :=
      { hevaluates with agrees := hevaluates.agrees.mono hsubset }
    exact ⟨issued ++ [task], hissued.setWalk hrun hprogress hevaluates' hnext⟩

theorem Sound.afterSending (h : f.Sound naming settings sources issued)
    (hrun : f.runs[r]? = some run) (hprogress : run.progress = .underWay) {node : Nat}
    {task : Task} (hstage : run.walk.stage = .offering node task) {sending : Sending} {x : Exchange}
    (hsend : f.exchange.attemptSend? run.session r task = some (sending, x)) :
    (({ f with exchange := x } : Farm).afterSending r run sending).Sound naming settings sources
      issued := by
  obtain ⟨record, t, hevaluates, -, hserves⟩ := h.underWay hrun hprogress
  obtain ⟨session, hs, hlive⟩ := h.live r run hrun hprogress
  have hsent := h.setExchange
    (Exchange.attemptSend?_spec h.carries (hserves.offered node task hstage) hsend)
  cases sending with
  | accepted =>
      exact hsent.setWalk hrun hprogress hevaluates (hserves.taken hevaluates.shows hstage)
  | waiting => exact hsent
  | refused => exact absurd rfl (Exchange.attemptSend?_ne_refused hs hlive hsend)

theorem Sound.received (h : f.Sound naming settings sources issued)
    (hrun : f.runs[r]? = some run) (hprogress : run.progress = .underWay) {node : Nat}
    {id : TaskId} (hstage : run.walk.stage = .awaiting node id) {result : TaskResult} {x : Exchange}
    (hreceive : f.exchange.receive run.session = (.result result, x)) :
    (({ f with exchange := x } : Farm).setWalk r run (run.walk.received result)).Sound naming
      settings sources issued := by
  obtain ⟨record, t, hevaluates, -, hserves⟩ := h.underWay hrun hprogress
  obtain ⟨hx, hresult⟩ := Exchange.receive_spec h.carries hreceive
  exact (h.setExchange hx).setWalk hrun hprogress hevaluates
    (hserves.result hevaluates.shows hstage h.issuedOnce (hresult result rfl))

/-- A walk that is over has come to the value of its tree. -/
theorem agrees_ofWalk {plan : Plan} {t : OpTree Nat} {walk : Walk}
    {outcome : Except EvalError Float} (hserves : walk.Serves plan t issued)
    (hstage : walk.stage = .finished outcome) :
    Agrees (ofWalk outcome) (t.evaluate plan.maxDepth 0) := by
  have hpromises := hserves.promises
  cases outcome with
  | ok value =>
      simp only [Walk.Promises, hstage] at hpromises
      rw [hpromises]
      exact rfl
  | error e =>
      simp only [Walk.Promises, hstage] at hpromises
      obtain ⟨fault, hfault, hvalue⟩ := hpromises
      rw [hvalue]
      exact hfault

theorem notes_finish (record : Record) (outcome : Except EvalError Float) :
    (record.finish (ending outcome)).Notes (ofWalk outcome) := by
  cases outcome with
  | ok value => exact ⟨rfl, rfl⟩
  | error e => exact ⟨rfl, rfl⟩

theorem Sound.conclude (h : f.Sound naming settings sources issued)
    (hrun : f.runs[r]? = some run) (hprogress : run.progress = .underWay)
    {outcome : Except EvalError Float} (hstage : run.walk.stage = .finished outcome) :
    (f.conclude r run outcome).Sound naming settings sources issued := by
  obtain ⟨record, t, hevaluates, hprocessing, hserves⟩ := h.underWay hrun hprogress
  obtain ⟨ledger, hfinish, hget, hothers⟩ :=
    Ledger.finish_processing hevaluates.get?_eq hprocessing (ending outcome)
  have hexpression : (record.finish (ending outcome)).expression = record.expression := by
    cases outcome <;> rfl
  have hended : Run.Evaluates settings sources issued ledger r
      { run with progress := .ended (ofWalk outcome) } (record.finish (ending outcome)) t :=
    { get?_eq := hget
      source_eq := hexpression ▸ hevaluates.source_eq
      parse_eq := hexpression ▸ hevaluates.parse_eq
      shows := hevaluates.shows
      maxDepth_eq := hevaluates.maxDepth_eq
      agrees := ⟨agrees_ofWalk hserves hstage, notes_finish record outcome⟩ }
  have hbooks : (f.releaseSession run.session).books.finish
      (f.releaseSession run.session).ledger run.expression (ending outcome) =
      .ok (record.finish (ending outcome), ledger) := by
    have hregular : (f.releaseSession run.session).books = .regular := h.books_eq
    rw [hregular]
    exact hfinish
  simp only [Farm.conclude, hbooks]
  exact h.endRun hrun (.ended (ofWalk outcome)) nofun hothers ⟨_, t, hended⟩

theorem Sound.walkStep (h : f.Sound naming settings sources issued)
    (hinjective : Function.Injective naming.task) (hstep : f.walkStep? r = some f') :
    ∃ issued', f'.Sound naming settings sources issued' := by
  obtain ⟨run, hrun, hprogress, hwalks⟩ := walkStep?_cases hstep
  cases hwalks with
  | turns hstage => exact h.turn hinjective hrun hprogress hstage
  | sends hstage hsend => exact ⟨issued, h.afterSending hrun hprogress hstage hsend⟩
  | receives hstage hreceive => exact ⟨issued, h.received hrun hprogress hstage hreceive⟩
  | hangsUp hstage hreceive =>
      obtain ⟨session, hs, hlive⟩ := h.live r run hrun hprogress
      exact absurd hreceive (Exchange.receive_ne_disconnected hs hlive)
  | concludes hstage => exact ⟨issued, h.conclude hrun hprogress hstage⟩

theorem Sound.abandon (h : f.Sound naming settings sources issued) (r : RunId) :
    (f.abandon r).Sound naming settings sources issued := by
  rcases f.abandon_cases r with hsame | ⟨run, hrun, -, habandon⟩
  · rwa [hsame]
  · obtain ⟨-, record, t, hevaluates⟩ := h.runs r run hrun
    have hwithdrawn := h.setExchange (Exchange.withdrawSend_spec h.carries run.session r)
    rw [habandon]
    exact hwithdrawn.endRun hrun .abandoned nofun (fun _ _ => rfl)
      ⟨record, t, { hevaluates with agrees := trivial }⟩

/-! ## Expressions -/

theorem source_mono {sources' : List String} {source : String} (hsources : sources <+: sources')
    (hsource : sources[r]? = some source) : sources'[r]? = some source := by
  obtain ⟨hlt, rfl⟩ := List.getElem?_eq_some_iff.mp hsource
  exact List.prefix_iff_getElem?.mp hsources r hlt

theorem Sound.beginRun (h : f.Sound naming settings sources issued) {id : ExpressionId}
    {arena : Arena} {record : Record} (hget : f.ledger.get? id = some record)
    (hprocessing : record.status = .processing)
    (hparse : Expr.parse record.expression = .ok arena)
    (hnew : ∀ (r : RunId) (run : Run), f.runs[r]? = some run → run.expression ≠ id) :
    (f.beginRun id arena).2.Sound naming settings (sources ++ [record.expression]) issued := by
  obtain ⟨t, ht⟩ := Arena.exists_shows_of_parse hparse
  have hopened := h.setExchange
    ⟨Exchange.carries_openSession h.carries, Exchange.keeps_openSession f.exchange⟩
  exact { hopened with
    length_eq := by simp [Farm.beginRun, h.length_eq]
    runs := by
      intro r found hfound
      rcases beginRun_cases hfound with ⟨rfl, rfl⟩ | hold
      · refine ⟨by simp [Farm.beginRun, Exchange.openSession], record, t, ?_⟩
        exact {
          get?_eq := hget
          source_eq := by simp [← h.length_eq]
          parse_eq := hparse
          shows := ht
          maxDepth_eq := congrArg Settings.maxDepth h.settings_eq
          agrees := ⟨hprocessing, Walk.Serves.start ht issued⟩ }
      · obtain ⟨hlt, old, told, hevaluates⟩ := hopened.runs r found hold
        have hsource := source_mono (List.prefix_append sources [record.expression])
          hevaluates.source_eq
        exact ⟨hlt, old, told, { hevaluates with source_eq := hsource }⟩
    live := by
      intro r found hfound hprogress
      rcases beginRun_cases hfound with ⟨-, rfl⟩ | hold
      · exact ⟨.opened, by simp [Farm.beginRun, Exchange.openSession], Session.live_opened⟩
      · exact hopened.live r found hold hprogress
    apart := by
      intro r₁ r₂ run₁ run₂ hrun₁ hrun₂ hne
      rcases beginRun_cases hrun₁ with ⟨he₁, rfl⟩ | hold₁
      · rcases beginRun_cases hrun₂ with ⟨he₂, -⟩ | hold₂
        · exact absurd (he₁.trans he₂.symm) hne
        · exact ⟨(Nat.ne_of_lt (h.runs _ _ hold₂).1).symm, (hnew _ _ hold₂).symm⟩
      · rcases beginRun_cases hrun₂ with ⟨he₂, rfl⟩ | hold₂
        · exact ⟨Nat.ne_of_lt (h.runs _ _ hold₁).1, hnew _ _ hold₁⟩
        · exact h.apart _ _ _ _ hold₁ hold₂ hne }

/-- Taking a source in begins at most a run for this source. -/
theorem Sound.accept (h : f.Sound naming settings sources issued) (source : String) :
    ∃ sources', sources <+: sources' ∧
      (f.accept source).2.Sound naming settings sources' issued ∧
      ∀ r, (f.accept source).1 = .ok r → sources'[r]? = some source := by
  have hcounted : ({ f with nextExpression := f.nextExpression + 1 } : Farm).Sound naming settings
      sources issued := { h with }
  have hregularCreate : f.books.create = Ledger.create := by
    rw [h.books_eq]
    rfl
  have hregularFinish : f.books.finish = Ledger.finish := by
    rw [h.books_eq]
    rfl
  unfold Farm.accept
  simp only [hregularCreate, hregularFinish]
  cases hcreate : f.ledger.create (.processing f.freshExpression source) with
  | error e => exact ⟨sources, List.prefix_rfl, hcounted, by simp⟩
  | ok ledger =>
      obtain ⟨hnone, hget, hothers⟩ := Ledger.create_ok hcreate
      -- the expression is new, so no run has its record
      have hnew : ∀ (r : RunId) (run : Run), f.runs[r]? = some run →
          run.expression ≠ f.freshExpression := by
        intro r run hrun he
        obtain ⟨-, record, t, hevaluates⟩ := h.runs r run hrun
        have hfound := hevaluates.get?_eq
        rw [he] at hfound
        cases hnone.symm.trans hfound
      have hcreated := hcounted.setLedger fun r run hrun => hothers _ (hnew r run hrun)
      cases hparse : Expr.parse source with
      | ok arena =>
          refine ⟨sources ++ [source], List.prefix_append _ _,
            hcreated.beginRun hget rfl hparse hnew, fun r hr => ?_⟩
          cases hr
          simp [Farm.beginRun, ← h.length_eq]
      | error cause =>
          have hgetFresh : ledger.get? f.freshExpression = some _ := hget
          obtain ⟨ledger', hfinish, -, hothers'⟩ := Ledger.finish_processing hgetFresh rfl .failed
          simp only [hfinish]
          exact ⟨sources, List.prefix_rfl,
            hcreated.setLedger fun r run hrun => hothers' _ (hnew r run hrun), by simp⟩

/-! ## Relays and workers -/

theorem Sound.relayStep (h : f.Sound naming settings sources issued) {s : SessionId}
    (hstep : f.relayStep? s = some f') : f'.Sound naming settings sources issued := by
  obtain ⟨x, hx, rfl⟩ := Option.map_eq_some_iff.mp hstep
  exact h.setExchange (Exchange.relayStep?_spec h.carries hx)

theorem Sound.look (h : f.Sound naming settings sources issued) (w : WorkerId) (worker : Worker) :
    (f.look w worker).Sound naming settings sources issued := by
  have hidle : ∀ task doneAt, worker.look.occupation = .computing task doneAt → task ∈ issued := by
    intro task doneAt hcomputing
    unfold Worker.look at hcomputing
    split at hcomputing
    · cases hcomputing
    · cases hcomputing
  have hlooked := h.setWorker w worker.look hidle
  unfold Farm.look
  simp only
  split
  · exact hlooked
  · exact hlooked.setLine _

theorem Sound.afterFetchStep (h : f.Sound naming settings sources issued) (w : WorkerId)
    (worker : Worker) {reply : Option FetchReply} {x : Exchange}
    (hfetches : Exchange.Fetches f.exchange reply x) :
    (f.afterFetchStep w worker (reply, x)).Sound naming settings sources issued := by
  obtain ⟨hx, hissued⟩ := hfetches.spec h.carries
  have hfetched := h.setExchange hx
  unfold Farm.afterFetchStep
  split
  · next he =>
    cases he
    exact hfetched
  · next task x' he =>
    cases he
    refine hfetched.setWorker w _ fun task' doneAt hcomputing => ?_
    cases hcomputing
    exact hissued task rfl
  · next he =>
    cases he
    exact hfetched.setWorker w (worker.missed f.policy f.now) nofun

theorem Sound.afterSubmission (h : f.Sound naming settings sources issued) (w : WorkerId)
    (worker : Worker) (id : TaskId) (submission : Submission) :
    (f.afterSubmission w worker id submission).Sound naming settings sources issued := by
  cases submission with
  | delivered => exact h.setWorker w worker.resumed nofun
  | waiting s => exact h.setWorker w (worker.held id s) nofun
  | failed error => exact h.setWorker w worker.resumed nofun

theorem Sound.workStep (h : f.Sound naming settings sources issued) {w : WorkerId}
    (hstep : f.workStep? w = some f') : f'.Sound naming settings sources issued := by
  obtain ⟨worker, hworker, hworks⟩ := workStep?_cases hstep
  have hmem : worker ∈ f.workers := Array.mem_of_getElem? hworker
  cases hworks with
  | looks => exact h.look w worker
  | fetches _ hfetch => exact h.afterFetchStep w worker (Exchange.fetches_of_fetchStep? hfetch)
  | @submits task doneAt hcomputing =>
      have hissued := h.computing worker hmem task doneAt hcomputing
      exact (h.setExchange (Exchange.submit_spec h.carries ⟨task, hissued, rfl⟩
        (Prod.eta (f.exchange.submit w task.result)).symm)).afterSubmission w worker _ _
  | resumes _ hresume =>
      exact (h.setExchange (Exchange.resumeSubmit?_spec h.carries hresume)).afterSubmission
        w worker _ _
  | wakes => exact h.setWorker w worker.resumed nofun

theorem Sound.quitStep (h : f.Sound naming settings sources issued) {w : WorkerId}
    (hstep : f.quitStep? w = some f') : f'.Sound naming settings sources issued := by
  obtain ⟨worker, -, -, -, rfl⟩ := quitStep?_cases hstep
  exact (h.setLine (f.exchange.lineWithout w)).setWorker w worker.stop nofun

theorem Sound.hire (h : f.Sound naming settings sources issued) :
    f.hire.Sound naming settings sources issued := by
  refine h.setWorkers fun worker hworker task doneAt hcomputing => ?_
  rcases mem_hire hworker with hold | rfl
  · exact h.computing worker hold task doneAt hcomputing
  · cases hcomputing

theorem Sound.dismiss (h : f.Sound naming settings sources issued) (w : WorkerId) :
    (f.dismiss w).Sound naming settings sources issued := by
  refine h.setWorkers fun worker hworker task doneAt hcomputing => ?_
  obtain ⟨old, hold, hsame⟩ := mem_dismiss hworker
  exact h.computing old hold task doneAt (hsame.symm.trans hcomputing)

/-! ## Histories -/

/-- A move keeps the invariant, except that it may issue a task or begin a run. -/
theorem Sound.move (h : f.Sound naming settings sources issued)
    (hinjective : Function.Injective naming.task) {m : Move} (hclose : m ≠ .close)
    (hmove : f.move? m = some f') :
    ∃ sources' issued', sources <+: sources' ∧ f'.Sound naming settings sources' issued' := by
  cases m with
  | accept source =>
      cases hmove
      obtain ⟨sources', hsources, haccepted, -⟩ := h.accept source
      exact ⟨sources', issued, hsources, haccepted⟩
  | abandon r =>
      cases hmove
      exact ⟨sources, issued, List.prefix_rfl, h.abandon r⟩
  | hire =>
      cases hmove
      exact ⟨sources, issued, List.prefix_rfl, h.hire⟩
  | dismiss w =>
      cases hmove
      exact ⟨sources, issued, List.prefix_rfl, h.dismiss w⟩
  | close => exact absurd rfl hclose
  | walk r =>
      obtain ⟨issued', hwalk⟩ := h.walkStep hinjective hmove
      exact ⟨sources, issued', List.prefix_rfl, hwalk⟩
  | relay s => exact ⟨sources, issued, List.prefix_rfl, h.relayStep hmove⟩
  | work w => exact ⟨sources, issued, List.prefix_rfl, h.workStep hmove⟩
  | quit w => exact ⟨sources, issued, List.prefix_rfl, h.quitStep hmove⟩
  | wait moment =>
      obtain ⟨-, rfl⟩ := wait_cases hmove
      exact ⟨sources, issued, List.prefix_rfl, { h with }⟩

theorem Sound.play (h : f.Sound naming settings sources issued)
    (hinjective : Function.Injective naming.task) {moves : List Move}
    (hclose : .close ∉ moves) (hplay : f.play? moves = some f') :
    ∃ sources' issued', sources <+: sources' ∧ f'.Sound naming settings sources' issued' := by
  induction moves generalizing f sources issued with
  | nil =>
      cases hplay
      exact ⟨sources, issued, List.prefix_rfl, h⟩
  | cons m rest ih =>
      obtain ⟨next, hmove, hrest⟩ := Option.bind_eq_some_iff.mp hplay
      have hm : m ≠ .close := fun he => hclose (he ▸ List.mem_cons_self)
      obtain ⟨sources₁, issued₁, hprefix₁, hnext⟩ := h.move hinjective hm hmove
      obtain ⟨sources₂, issued₂, hprefix₂, hend⟩ :=
        ih hnext (fun hmem => hclose (List.mem_cons_of_mem _ hmem)) hrest
      exact ⟨sources₂, issued₂, hprefix₁.trans hprefix₂, hend⟩

/-- A run that has ended came to the value of its tree, and its record says so. -/
theorem Sound.ended (h : f.Sound naming settings sources issued) {source : String}
    (hsource : sources[r]? = some source) {outcome : Except FarmError Float}
    (hended : f.outcome? r = some outcome) :
    ∃ run record t, f.runs[r]? = some run ∧ f.ledger.get? run.expression = some record ∧
      record.expression = source ∧ Expr.parse source = .ok run.plan.arena ∧
      run.plan.arena.Shows t ∧ Agrees outcome (t.evaluate settings.maxDepth 0) ∧
      record.Notes outcome := by
  obtain ⟨run, hrun, hended⟩ := Option.bind_eq_some_iff.mp hended
  obtain ⟨-, record, t, hevaluates⟩ := h.runs r run hrun
  have hexpression : record.expression = source :=
    Option.some.inj (hevaluates.source_eq.symm.trans hsource)
  have hprogress : run.progress = .ended outcome := by
    unfold Run.outcome? at hended
    split at hended
    · next hprogress => exact hprogress.trans (congrArg Progress.ended (Option.some.inj hended))
    · cases hended
  have hagrees := hevaluates.agrees
  rw [hprogress] at hagrees
  exact ⟨run, record, t, hrun, hevaluates.get?_eq, hexpression,
    hexpression ▸ hevaluates.parse_eq, hevaluates.shows, hevaluates.maxDepth_eq ▸ hagrees.1,
    hagrees.2⟩

/-- In every history in which the exchange stays open, a run that was begun for a source can only
end with the value of the source's own tree, or with its fault.  No two tasks may get the same
name. -/
theorem outcome_agrees (hids : Function.Injective naming.task) {before after : List Move}
    {f₀ f₁ f₂ : Farm} {source : String}
    (hbefore : (openedWith naming settings .regular).play? before = some f₀)
    (haccept : f₀.accept source = (.ok r, f₁)) (hafter : f₁.play? after = some f₂)
    (hclose : .close ∉ before ++ after) {outcome : Except FarmError Float}
    (hended : f₂.outcome? r = some outcome) :
    ∃ run record t, f₂.runs[r]? = some run ∧ f₂.ledger.get? run.expression = some record ∧
      record.expression = source ∧ Expr.parse source = .ok run.plan.arena ∧
      run.plan.arena.Shows t ∧ Agrees outcome (t.evaluate settings.maxDepth 0) ∧
      record.Notes outcome := by
  obtain ⟨sources₀, issued₀, -, hsound₀⟩ := (sound_opened naming settings).play hids
    (fun hmem => hclose (List.mem_append_left _ hmem)) hbefore
  obtain ⟨sources₁, -, hsound₁, hbegun⟩ := hsound₀.accept source
  rw [haccept] at hsound₁ hbegun
  obtain ⟨sources₂, issued₂, hprefix, hsound₂⟩ := hsound₁.play hids
    (fun hmem => hclose (List.mem_append_right _ hmem)) hafter
  exact hsound₂.ended (source_mono hprefix (hbegun r rfl)) hended

/-- The sum is handed in while the product is under way, and is computed first. -/
theorem outcome_agrees_overlapping :
    ∃ f₀ f₁ f₂ value,
      (openedWith .counting .standard .regular).play?
        [.accept "4*5", .hire, .walk 0, .walk 0, .relay 0] = some f₀ ∧
      f₀.accept "1+2" = (.ok 1, f₁) ∧
      f₁.play? [.walk 1, .walk 1, .relay 1, .relay 1, .work 0, .work 0, .relay 0, .wait 10,
        .work 0, .walk 1, .walk 1, .walk 1] = some f₂ ∧
      f₂.outcome? 1 = some (.ok value) ∧
      ∃ run record t, f₂.runs[1]? = some run ∧ f₂.ledger.get? run.expression = some record ∧
        record.expression = "1+2" ∧ Expr.parse "1+2" = .ok run.plan.arena ∧
        run.plan.arena.Shows t ∧
        Agrees (.ok value) (t.evaluate Settings.standard.maxDepth 0) ∧
        record.Notes (.ok value) := by
  refine ⟨?f₀, ?f₁, ?f₂, ?value, ?before, ?accepted, ?after, ?ended,
    outcome_agrees Naming.counting_task ?before ?accepted ?after ?isOpen ?ended⟩
  case isOpen => decide
  case before => exact rfl
  case accepted => exact rfl
  case after => exact rfl
  case ended => exact rfl

end Farm

end TaskFarm
