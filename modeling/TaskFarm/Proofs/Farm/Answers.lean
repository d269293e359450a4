import TaskFarm.Proofs.Farm.Errand
import TaskFarm.Proofs.Farm.Strides

/-!
# Every expression gets its answer

A farm is idle if it is at rest and all of its records have ended.  An idle farm answers every
expression: with the value of its tree, with the fault of its tree, or with what keeps it from being
read.  The farm is idle again then, and its ledger has one more record, which says the same.
-/

namespace TaskFarm

open TaskFarm.Expr (Arena OpTree Fault)

/-- What an expression comes to: it cannot be read, or its tree has a value or a fault. -/
inductive Answers (maxDepth : Nat) (source : String) : Except FarmError Float → Prop
  | unreadable {cause : Expr.CompileError} : Expr.parse source = .error cause →
      Answers maxDepth source (.error (.ofCompileError cause))
  | evaluated {arena : Arena} {t : OpTree Nat} {outcome : Except FarmError Float} :
      Expr.parse source = .ok arena → arena.Shows t → Agrees outcome (t.evaluate maxDepth 0) →
      Answers maxDepth source outcome

/-- Outcomes that are the same, or else failures of tasks that differ in their names alone. -/
def SameButForTask (outcome outcome' : Except FarmError Float) : Prop :=
  outcome = outcome' ∨ ∃ id id' cause,
    outcome = .error (.evaluation (.task id cause)) ∧
      outcome' = .error (.evaluation (.task id' cause))

theorem FarmError.cases_of_fault? {e : FarmError} {fault : Fault}
    (h : e.fault? = some fault) :
    (∃ id, e = .evaluation (.task id .divisionByZero) ∧ fault = .divisionByZero) ∨
      ∃ depth maxDepth, e = .evaluation (.depthExceeded depth maxDepth) ∧
        fault = .depthExceeded depth maxDepth := by
  unfold fault? EvalError.fault? at h
  grind

theorem Agrees.sameButForTask {outcome outcome' : Except FarmError Float}
    {expected : Except Fault Float} (h : Agrees outcome expected)
    (h' : Agrees outcome' expected) : SameButForTask outcome outcome' := by
  cases expected with
  | ok expected =>
      cases outcome with
      | error e => exact h.elim
      | ok value =>
          cases outcome' with
          | error e => exact h'.elim
          | ok value' => exact .inl (congrArg Except.ok (Eq.trans h (Eq.symm h')))
  | error fault =>
      cases outcome with
      | ok value => exact h.elim
      | error e =>
          cases outcome' with
          | ok value => exact h'.elim
          | error e' =>
              rcases FarmError.cases_of_fault? h with ⟨id, rfl, rfl⟩ | ⟨depth, maxDepth, rfl, rfl⟩
              · rcases FarmError.cases_of_fault? h' with ⟨id', rfl, -⟩ | ⟨_, _, -, hfault⟩
                · exact .inr ⟨id, id', _, rfl, rfl⟩
                · cases hfault
              · rcases FarmError.cases_of_fault? h' with ⟨_, -, hfault⟩ | ⟨_, _, rfl, hfault⟩
                · cases hfault
                · cases hfault
                  exact .inl rfl

/-- Whenever an expression is answered, it comes to the same but for the name of a task. -/
theorem Answers.sameButForTask {maxDepth : Nat} {source : String}
    {outcome outcome' : Except FarmError Float} (h : Answers maxDepth source outcome)
    (h' : Answers maxDepth source outcome') : SameButForTask outcome outcome' := by
  cases h with
  | unreadable hparse =>
      cases h' with
      | unreadable hparse' =>
          cases hparse.symm.trans hparse'
          exact .inl rfl
      | evaluated hparse' => cases hparse.symm.trans hparse'
  | evaluated hparse ht hagrees =>
      cases h' with
      | unreadable hparse' => cases hparse.symm.trans hparse'
      | evaluated hparse' ht' hagrees' =>
          cases hparse.symm.trans hparse'
          obtain rfl := ht.liesIn.eq_of_label ht'.liesIn (ht.root_eq.trans ht'.root_eq.symm)
          exact hagrees.sameButForTask hagrees'

/-! ## A ledger with one more record -/

namespace Ledger

variable {l l' : Ledger} {r record : Record} {id : ExpressionId}

theorem get?_of_mem (honce : (l.records.map Record.id).Nodup) (h : r ∈ l.records) :
    l.get? r.id = some r := by
  cases hget : l.get? r.id with
  | none => exact absurd (List.mem_map_of_mem h) (get?_eq_none.mp hget)
  | some found =>
      have hsame := List.inj_on_of_nodup_map honce (mem_of_get? hget) h (id_of_get? hget)
      rw [hsame]

/-- The records of a ledger are what it finds under their ids. -/
theorem records_eq {records : List Record} (honce : (l.records.map Record.id).Nodup)
    (hids : l.records.map Record.id = records.map Record.id)
    (h : ∀ r ∈ records, l.get? r.id = some r) : l.records = records := by
  refine List.map_injective_iff.mpr (fun _ _ => Option.some.inj) ?_
  calc l.records.map some
      = (l.records.map Record.id).map l.get? := by
        rw [List.map_map]
        exact List.map_congr_left fun r hr => (get?_of_mem honce hr).symm
    _ = (records.map Record.id).map l.get? := by rw [hids]
    _ = records.map some := by
        rw [List.map_map]
        exact List.map_congr_left h

/-- If all records have ended, a new one is all that can come of them. -/
theorem Follows.records_eq (h : l.Follows l') (honce : (l'.records.map Record.id).Nodup)
    (hids : l'.records.map Record.id = l.records.map Record.id ++ [id])
    (hended : ∀ r ∈ l.records, r.status ≠ .processing) (hget : l'.get? id = some record) :
    l'.records = l.records ++ [record] := by
  have hearlier : (l.records.map Record.id).Nodup := by
    rw [hids] at honce
    exact (List.nodup_append.mp honce).1
  refine Ledger.records_eq honce ?_ fun r hr => ?_
  · simp [hids, id_of_get? hget]
  · rcases List.mem_append.mp hr with hold | hnew
    · obtain ⟨r', hget', rfl | ⟨hprocessing, -⟩⟩ := h r.id r (get?_of_mem hearlier hold)
      · exact hget'
      · exact absurd hprocessing (hended r hold)
    · obtain rfl := List.mem_singleton.mp hnew
      rwa [id_of_get? hget]

end Ledger

theorem Record.Notes.ended {record : Record} {outcome : Except FarmError Float}
    (h : record.Notes outcome) : record.status ≠ .processing := by
  cases outcome with
  | ok value => simp [h.1]
  | error e => simp [h.1]

namespace Farm

variable {settings : Settings} {f f' : Farm} {r : RunId} {source : String} {moves : List Move}

/-! ## The errand of an expression -/

theorem hosts_openSession {x : Exchange} (h : x.Hosts 0 .home) :
    x.openSession.2.Bears x.sessions.size .home where
  queue_eq := h.queue_eq
  routes_eq := h.routes_eq
  line_eq := h.line_eq
  isOpen := h.isOpen
  session_eq := by simp [Exchange.openSession, Trip.session]

/-- The run of an expression is an errand, for which there is patience enough. -/
theorem AtRest.errand (h : f.AtRest) (haccept : f.accept source = (.ok r, f')) :
    ∃ run t n, f'.Errand r run .home t [] n ∧ n ≤ f'.errandPatience r ∧
      run.expression = f.freshExpression := by
  obtain ⟨arena, hparse, -, hrun, hexchange, hworkers⟩ := accept_ok haccept
  obtain ⟨t, ht⟩ := Expr.Arena.exists_shows_of_parse hparse
  refine ⟨.begun f.settings f.freshExpression arena f.exchange.sessions.size, t, t.effort + 2,
    ?_, ?_, rfl⟩
  · exact {
      run_eq := hrun
      underWay := rfl
      bears := hexchange ▸ hosts_openSession h.hosts
      staffed := h.staffed.congr hworkers
      fits := rfl
      shows := ht
      sound := Outing.sound_start ht
      takes := ⟨t.effort + 2, Walk.takes_start ht, Nat.le_refl _⟩ }
  · have hpatience : f'.errandPatience r = 16 * (arena.size + 2) := by
      rw [errandPatience, hrun]
      rfl
    have heffort := t.effort_le
    rw [← ht.size_eq] at heffort
    rw [hpatience]
    omega

/-- An expression that is taken in comes to its outcome by the moves of its errand. -/
theorem AtRest.runErrand (h : f.AtRest) (haccept : f.accept source = (.ok r, f')) :
    ∃ moves run outcome, (∀ m ∈ moves, m.isErrand = true) ∧
      f'.play? moves = some (f'.runErrand r) ∧ (f'.runErrand r).AtRest ∧
      (f'.runErrand r).outcome? r = some outcome ∧
      (f'.runErrand r).runs[r]? = some run ∧ run.expression = f.freshExpression := by
  obtain ⟨begun, t, n, herrand, hpatience, hexpression⟩ := h.errand haccept
  obtain ⟨moves, hmoves, hplay, hrest, outcome, hended⟩ := herrand.settles hpatience
  obtain ⟨run, hrun, hcontinues⟩ := continues_play? hplay herrand.run_eq
  exact ⟨moves, run, outcome, hmoves, hplay, hrest, hended, hrun,
    hcontinues.1.trans hexpression⟩

/-! ## Idle farms -/

/-- Nothing is under way, and every record has ended. -/
structure Idle (settings : Settings) (f : Farm) : Prop where
  sound : ∃ sources issued, f.Sound .counting settings sources issued
  booked : ∃ sources, f.Booked .counting sources
  atRest : f.AtRest
  ended : ∀ record ∈ f.ledger.records, record.status ≠ .processing

theorem source?_of_isErrand {m : Move} (h : m.isErrand = true) : m.source? = none := by
  cases m with
  | accept | abandon | hire | dismiss | close | quit => cases h
  | walk | relay | work | wait => rfl

/-- An idle farm is idle again when an expression has been taken in and the moves of its errand have
led to rest. -/
theorem Idle.play (h : f.Idle settings) (hmoves : ∀ m ∈ moves, m.isErrand = true)
    (hplay : f.play? (.accept source :: moves) = some f') (hrest : f'.AtRest) {record : Record}
    (hget : f'.ledger.get? f.freshExpression = some record)
    (hended : record.status ≠ .processing) :
    f'.Idle settings ∧ f'.ledger.records = f.ledger.records ++ [record] := by
  obtain ⟨sources, issued, hsound⟩ := h.sound
  obtain ⟨called, hbooked⟩ := h.booked
  have hclose : .close ∉ Move.accept source :: moves := by
    intro hmem
    rcases List.mem_cons.mp hmem with he | hmem
    · cases he
    · cases hmoves _ hmem
  have hcalled : (Move.accept source :: moves).filterMap Move.source? = [source] := by
    have hnone : moves.filterMap Move.source? = [] :=
      List.filterMap_eq_nil_iff.mpr fun m hm => source?_of_isErrand (hmoves m hm)
    rw [List.filterMap_cons_some (rfl : (Move.accept source).source? = some source), hnone]
  obtain ⟨sources', issued', -, hsound'⟩ := hsound.play Naming.counting_task hclose hplay
  obtain ⟨hbooked', hwritten⟩ := hbooked.play Naming.counting_expression hplay
  rw [hcalled] at hbooked'
  have hids : f'.ledger.records.map Record.id =
      f.ledger.records.map Record.id ++ [f.freshExpression] := by
    rw [hbooked'.ids, hbooked.ids, freshExpression, hbooked.naming_eq, hbooked.counted]
    simp [List.range_succ]
  have hrecords := (Ledger.follows_write hwritten).records_eq
    (hbooked'.idsOnce Naming.counting_expression) hids h.ended hget
  refine ⟨⟨⟨sources', issued', hsound'⟩, ⟨called ++ [source], hbooked'⟩, hrest, ?_⟩, hrecords⟩
  intro r hr
  rw [hrecords] at hr
  rcases List.mem_append.mp hr with hold | hnew
  · exact h.ended r hold
  · rwa [List.mem_singleton.mp hnew]

theorem Idle.evaluate_unreadable (h : f.Idle settings) {cause : Expr.CompileError}
    (hparse : Expr.parse source = .error cause) :
    ∃ f' record, f.evaluate source = (some (.error (.ofCompileError cause)), f') ∧
      f'.Idle settings ∧ f'.ledger.records = f.ledger.records ++ [record] ∧
      record.expression = source ∧ record.Notes (.error (.ofCompileError cause)) := by
  obtain ⟨called, hbooked⟩ := h.booked
  obtain ⟨hfailed, -, hexchange⟩ :=
    accept_unreadable (hbooked.accept_spec Naming.counting_expression source).1 hparse
  obtain ⟨record, hget, hexpression, hstatus⟩ :=
    hbooked.record_accept Naming.counting_expression source
  rw [hparse] at hstatus
  have hrest : (f.accept source).2.AtRest :=
    ⟨hexchange ▸ h.atRest.hosts, h.atRest.staffed.congr (f.workers_accept source)⟩
  have hnotes : record.Notes (.error (.ofCompileError cause)) := hstatus
  have hplay : f.play? [.accept source] = some (f.accept source).2 := rfl
  obtain ⟨hidle, hrecords⟩ := h.play (by simp) hplay hrest hget hnotes.ended
  refine ⟨_, record, ?_, hidle, hrecords, hexpression, hnotes⟩
  unfold evaluate
  split
  · next e f' haccept =>
    rw [haccept] at hfailed ⊢
    rw [Except.error.inj hfailed]
  · next r f' haccept =>
    rw [haccept] at hfailed
    cases hfailed

theorem Idle.evaluate_readable (h : f.Idle settings) {arena : Expr.Arena}
    (hparse : Expr.parse source = .ok arena) :
    ∃ outcome f' record t, f.evaluate source = (some outcome, f') ∧
      arena.Shows t ∧ Agrees outcome (t.evaluate settings.maxDepth 0) ∧
      f'.Idle settings ∧ f'.ledger.records = f.ledger.records ++ [record] ∧
      record.expression = source ∧ record.Notes outcome := by
  obtain ⟨called, hbooked⟩ := h.booked
  obtain ⟨hadmitted, -⟩ :=
    accept_readable (hbooked.accept_spec Naming.counting_expression source).1 hparse
  have haccept : f.accept source = (.ok f.runs.size, (f.accept source).2) :=
    Prod.ext hadmitted rfl
  obtain ⟨moves, run, outcome, hmoves, hplay, hrest, hended, hrun, hexpression⟩ :=
    h.atRest.runErrand haccept
  obtain ⟨record, t, hget, hsource, ht, hagrees, hnotes⟩ :
      ∃ record t, ((f.accept source).2.runErrand f.runs.size).ledger.get? f.freshExpression =
        some record ∧ record.expression = source ∧ arena.Shows t ∧
        Agrees outcome (t.evaluate settings.maxDepth 0) ∧ record.Notes outcome := by
    obtain ⟨sources, issued, hsound⟩ := h.sound
    obtain ⟨sources₁, -, hsound₁, hbegun⟩ := hsound.accept source
    have hclose : .close ∉ moves := fun hmem => by cases hmoves _ hmem
    obtain ⟨sources₂, issued₂, hprefix, hsound₂⟩ := hsound₁.play Naming.counting_task hclose hplay
    obtain ⟨run', record, t, hrun', hget, hsource, hparse', ht, hagrees, hnotes⟩ :=
      hsound₂.ended (source_mono hprefix (hbegun _ hadmitted)) hended
    obtain rfl : run' = run := Option.some.inj (hrun'.symm.trans hrun)
    rw [hparse] at hparse'
    obtain rfl := Except.ok.inj hparse'
    exact ⟨record, t, hexpression ▸ hget, hsource, ht, hagrees, hnotes⟩
  have hall : f.play? (.accept source :: moves) =
      some ((f.accept source).2.runErrand f.runs.size) := hplay
  obtain ⟨hidle, hrecords⟩ := h.play hmoves hall hrest hget hnotes.ended
  refine ⟨outcome, _, record, t, ?_, ht, hagrees, hidle, hrecords, hsource, hnotes⟩
  rw [evaluate, haccept]
  exact Prod.ext hended rfl

/-- An idle farm answers every expression, and notes the answer. -/
theorem Idle.evaluate (h : f.Idle settings) (source : String) :
    ∃ outcome f' record, f.evaluate source = (some outcome, f') ∧
      Answers settings.maxDepth source outcome ∧ f'.Idle settings ∧
      f'.ledger.records = f.ledger.records ++ [record] ∧ record.expression = source ∧
      record.Notes outcome := by
  cases hparse : Expr.parse source with
  | error cause =>
      obtain ⟨f', record, hevaluate, hidle, hrecord⟩ := h.evaluate_unreadable hparse
      exact ⟨_, f', record, hevaluate, .unreadable hparse, hidle, hrecord⟩
  | ok arena =>
      obtain ⟨outcome, f', record, t, hevaluate, ht, hagrees, hidle, hrecord⟩ :=
        h.evaluate_readable hparse
      exact ⟨outcome, f', record, hevaluate, .evaluated hparse ht hagrees, hidle, hrecord⟩

/-! ## Farms that have just been staffed -/

theorem workers_hire_opened (w : WorkerId) (settings : Settings) (books : Bookkeeper)
    {worker : Worker} (h : ((opened settings books).hire).workers[w]? = some worker) :
    worker = .hired := by
  have hmem : worker ∈ Array.replicate settings.workers.count Worker.hired := by
    simpa [opened, openedWith, hire] using Array.mem_of_getElem? h
  exact (Array.mem_replicate.mp hmem).2

theorem atRest_opened {settings : Settings} (hcount : 0 < settings.workers.count)
    (books : Bookkeeper) : (opened settings books).hire.AtRest := by
  constructor
  · refine ⟨⟨max settings.queue.capacity 1 - 1, ?_⟩, rfl, rfl, rfl⟩
    rw [Nat.sub_add_cancel (Nat.le_max_right _ _)]
    rfl
  · constructor
    · exact ⟨.hired, by simp [opened, openedWith, hire, hcount], rfl, rfl⟩
    · intro w worker _ hworker
      rw [workers_hire_opened w settings books hworker]
      rfl

/-- A farm with a worker is idle at the beginning. -/
theorem idle_opened {settings : Settings} (hcount : 0 < settings.workers.count) :
    (opened settings .regular).hire.Idle settings := by
  have hhire : (opened settings .regular).play? [.hire] = some (opened settings .regular).hire :=
    rfl
  have hempty : (opened settings .regular).hire.ledger.records = [] := rfl
  obtain ⟨sources, issued, -, hsound⟩ :=
    (sound_opened .counting settings).play Naming.counting_task (by simp) hhire
  obtain ⟨hbooked, -⟩ := (booked_opened .counting settings).play Naming.counting_expression hhire
  exact ⟨⟨sources, issued, hsound⟩, ⟨_, hbooked⟩, atRest_opened hcount .regular, by simp [hempty]⟩

end Farm

end TaskFarm
