import TaskFarm.Proofs.Farm.Deals
import TaskFarm.Proofs.Farm.Sound

/-!
# A diary of what the workers do

The diary notes when a worker begins to look for a task, when it takes one out of the queue and when
it hands in a result; nothing else that a worker does is seen at the exchange.  The exchange serves
others than the walks of the farm as well: they may send whatever tasks they like.

`Proceeds` lists all that can become of one worker in a single happening, together with what the
diary says of it.
-/

namespace TaskFarm

/-- What a worker does at the exchange. -/
inductive Deed where
  /-- It begins to look for a task. -/
  | looks
  | takes (task : Task)
  /-- It hands in what the task of this id has come to. -/
  | submits (id : TaskId) (outcome : Except TaskError Float)

/-- The deeds of one worker. -/
def deedsOf (w : WorkerId) (entries : List (WorkerId × Deed)) : List Deed :=
  (entries.filter fun entry => entry.1 == w).map Prod.snd

/-- The tasks that were taken out of the queue. -/
def tasksTaken (entries : List (WorkerId × Deed)) : List (WorkerId × Task) :=
  entries.filterMap fun entry =>
    match entry.2 with
    | .takes task => some (entry.1, task)
    | _ => none

@[simp] theorem deedsOf_append (w : WorkerId) (es es' : List (WorkerId × Deed)) :
    deedsOf w (es ++ es') = deedsOf w es ++ deedsOf w es' := by
  simp [deedsOf]

@[simp] theorem tasksTaken_append (es es' : List (WorkerId × Deed)) :
    tasksTaken (es ++ es') = tasksTaken es ++ tasksTaken es' :=
  List.filterMap_append

@[simp] theorem deedsOf_nil (w : WorkerId) : deedsOf w [] = [] :=
  rfl

@[simp] theorem deedsOf_self (w : WorkerId) (d : Deed) : deedsOf w [(w, d)] = [d] := by
  simp [deedsOf]

theorem mem_deedsOf {w : WorkerId} {entries : List (WorkerId × Deed)} {d : Deed} :
    d ∈ deedsOf w entries ↔ (w, d) ∈ entries := by
  simp [deedsOf]

/-- Nobody but a worker fetches tasks or hands in results. -/
def Deal.isOfWorker : Deal → Bool
  | .startFetch _ | .fetch _ _ | .leaveLine _ | .submit _ _ | .resumeSubmit _ _ _ => true
  | _ => false

def Deed.ofReply? : Option FetchReply → Option Deed
  | some (.task task) => some (.takes task)
  | _ => none

/-- What a deal is for the diary. -/
def Deal.deed? (x : Exchange) : Deal → Option (WorkerId × Deed)
  | .startFetch w => some (w, .looks)
  | .fetch w now =>
    (x.fetchStep? w now).bind fun step => (Deed.ofReply? step.1).map fun deed => (w, deed)
  | .submit w result => some (w, .submits result.id result.outcome)
  | _ => none

theorem Deal.deed?_eq_none (d : Deal) {x : Exchange} (hother : d.isOfWorker = false) :
    d.deed? x = none := by
  cases d with
  | startFetch | fetch | leaveLine | submit | resumeSubmit => cases hother
  | openSession | send | resumeSend | withdrawSend | dropTasks | relay | receive | dropResults
  | close => rfl

namespace Exchange

variable {x x' : Exchange} {d : Deal} {deals : List Deal}

/-- What a list of deals is for the diary. -/
def deeds (x : Exchange) : List Deal → List (WorkerId × Deed)
  | [] => []
  | d :: rest => (d.deed? x).toList ++ ((x.deal? d).map fun x => x.deeds rest).getD []

theorem deeds_eq_nil (h : ∀ d ∈ deals, d.isOfWorker = false) : x.deeds deals = [] := by
  induction deals generalizing x with
  | nil => rfl
  | cons d rest ih =>
      have hfirst : d.deed? x = none := d.deed?_eq_none (h d (List.mem_cons_self ..))
      have hrest : ∀ y : Exchange, y.deeds rest = [] :=
        fun y => ih fun d hd => h d (List.mem_cons_of_mem _ hd)
      simp only [deeds, hfirst, hrest]
      cases x.deal? d <;> rfl

theorem deeds_singleton (x : Exchange) (d : Deal) : x.deeds [d] = (d.deed? x).toList := by
  simp only [deeds]
  cases x.deal? d <;> simp

/-! ## Tasks leave the queue at its head, and only by being taken -/

/-- The diary notes the same tasks as fetched as the journal does. -/
theorem fetched_note (j : Journal) (x : Exchange) (d : Deal) (x' : Exchange) :
    (j.note x d x').fetched = j.fetched ++ tasksTaken (d.deed? x).toList := by
  cases d with
  | openSession | withdrawSend | dropTasks | startFetch | leaveLine | submit | resumeSubmit
  | receive | dropResults | close => simp [Journal.note, Deal.deed?, tasksTaken]
  | send s party task =>
      simp only [Journal.note]
      cases (x.send s party task).1 <;> simp [Journal.noteSend, Deal.deed?, tasksTaken]
  | resumeSend s party =>
      simp only [Journal.note]
      split
      · next sending _ _ => cases sending <;> simp [Journal.noteResume, Deal.deed?, tasksTaken]
      · simp [Deal.deed?, tasksTaken]
  | relay s =>
      simp only [Journal.note, Journal.noteRelay]
      split <;> simp [Deal.deed?, tasksTaken]
  | fetch party now =>
      simp only [Journal.note, Deal.deed?]
      cases x.fetchStep? party now with
      | none => simp [tasksTaken]
      | some step =>
          rcases step with ⟨_ | task | _ | _, _⟩ <;>
            simp [Journal.noteFetch, Deed.ofReply?, tasksTaken]

theorem buffer_of_attempt? {σ α : Type} [BEq σ] [LawfulBEq σ] {ch ch' : Channel σ α} {s : σ}
    {v : α} {sending : Sending} (h : ch.attempt? s v = some (sending, ch')) :
    ∃ entered, ch'.buffer = ch.buffer ++ entered := by
  unfold Channel.attempt? at h
  split at h
  · rcases Channel.resume?_cases h with ⟨-, -, rfl⟩ | ⟨u, -, -, -, -, rfl⟩
    · exact ⟨[], by rw [(ch.withdraw_eq s).1, List.append_nil]⟩
    · exact ⟨[u], rfl⟩
  · rcases Channel.offer_cases (Option.some.inj h) with ⟨-, -, rfl⟩ | ⟨-, -, rfl⟩ | ⟨-, -, rfl⟩
    · exact ⟨[], (List.append_nil _).symm⟩
    · exact ⟨[v], rfl⟩
    · exact ⟨[], (List.append_nil _).symm⟩

/-- Tasks enter the queue at its end and leave it at its head. -/
theorem Conveys.passes {j j' : Journal} (h : Conveys j x d j' x') :
    ∃ taken entered, j'.fetched = j.fetched ++ taken ∧
      taken.map Prod.snd ++ x'.queue.buffer = x.queue.buffer ++ entered := by
  have hkept : ∀ {queue : Channel SessionId Task}, queue = x.queue ∨ queue = x.queue.close →
      queue.buffer = x.queue.buffer := by
    rintro queue (rfl | rfl)
    · rfl
    · rfl
  cases h with
  | rests hqueue => exact ⟨[], [], by simp, by simp [hkept hqueue]⟩
  | @offers _ _ _ _ sending _ _ hqueue =>
      refine ⟨[], [], ?_, by simp [hqueue]⟩
      cases sending <;> simp [Journal.noteSend]
  | @resumes _ _ _ sending _ _ hqueue =>
      refine ⟨[], [], ?_, by simp [hqueue]⟩
      cases sending <;> simp [Journal.noteResume]
  | withdraws hqueue => exact ⟨[], [], by simp, by simp [hqueue]⟩
  | takes _ _ _ hqueue => exact ⟨[], [], by simp, by simp [hqueue]⟩
  | ends _ _ hqueue => exact ⟨[], [], by simp, by simp [hqueue]⟩
  | waits _ hattempt | puts _ hattempt | drops _ hattempt =>
      obtain ⟨entered, hbuffer⟩ := buffer_of_attempt? hattempt
      exact ⟨[], entered, by simp, by simp [hbuffer]⟩
  | @fetches _ party _ task _ hqueue htake =>
      have hbuffer := (Channel.take?_some htake).1
      rw [hkept hqueue] at hbuffer
      exact ⟨[(party, task)], [], rfl, by simp [hbuffer]⟩

theorem passes_deal? (h : x.deal? d = some x') :
    ∃ entered, (tasksTaken (d.deed? x).toList).map Prod.snd ++ x'.queue.buffer =
      x.queue.buffer ++ entered := by
  obtain ⟨taken, entered, hfetched, hpasses⟩ := (conveys_deal? (j := .blank) h).passes
  rw [fetched_note] at hfetched
  rw [List.append_cancel_left hfetched]
  exact ⟨entered, hpasses⟩

theorem passes_deals? (h : x.deals? deals = some x') :
    ∃ entered, (tasksTaken (x.deeds deals)).map Prod.snd ++ x'.queue.buffer =
      x.queue.buffer ++ entered := by
  induction deals generalizing x with
  | nil =>
      obtain rfl := Option.some.inj h
      exact ⟨[], by simp [deeds, tasksTaken]⟩
  | cons d rest ih =>
      obtain ⟨next, hdeal, hrest⟩ := Option.bind_eq_some_iff.mp h
      obtain ⟨entered, hfirst⟩ := passes_deal? hdeal
      obtain ⟨entered', hlast⟩ := ih hrest
      refine ⟨entered ++ entered', ?_⟩
      simp only [deeds, hdeal, Option.map_some, Option.getD_some, tasksTaken_append,
        List.map_append]
      rw [List.append_assoc, hlast, ← List.append_assoc, hfirst, List.append_assoc]

end Exchange

/-! ## What can become of a worker -/

/-- What can become of a worker's occupation in a single happening, and its deeds meanwhile. -/
inductive Proceeds (now : Nat) : Bool → Occupation → List Deed → Occupation → Prop
  | rests (dismissed : Bool) (o : Occupation) : Proceeds now dismissed o [] o
  | looks : Proceeds now false .ready [.looks] .fetching
  | stops : Proceeds now true .ready [] .stopped
  | takes (dismissed : Bool) (task : Task) :
      Proceeds now dismissed .fetching [.takes task] (.computing task (now + task.cost))
  | misses (dismissed : Bool) (wakeAt : Nat) :
      Proceeds now dismissed .fetching [] (.pausing wakeAt)
  | submits (dismissed : Bool) (task : Task) {doneAt : Nat} (hdone : doneAt ≤ now) {o : Occupation}
      (hnext : o = .ready ∨ ∃ s, o = .submitting task.id s) :
      Proceeds now dismissed (.computing task doneAt) [.submits task.id task.compute] o
  | resumes (dismissed : Bool) (id : TaskId) {s : SessionId} {o : Occupation}
      (hnext : o = .ready ∨ ∃ s', o = .submitting id s') :
      Proceeds now dismissed (.submitting id s) [] o
  | wakes (dismissed : Bool) {wakeAt : Nat} : Proceeds now dismissed (.pausing wakeAt) [] .ready
  | quits {o : Occupation} (hidle : o = .fetching ∨ ∃ wakeAt, o = .pausing wakeAt) :
      Proceeds now true o [] .stopped

/-- The same for a worker that may not be hired yet. -/
inductive Fares (now : Nat) : Option Worker → List Deed → Option Worker → Prop
  | absent : Fares now none [] none
  | hired : Fares now none [] (some .hired)
  /-- A worker that is dismissed remains so. -/
  | proceeds {a b : Worker} {deeds : List Deed}
      (hproceeds : Proceeds now a.dismissed a.occupation deeds b.occupation)
      (hdismissed : a.dismissed = true → b.dismissed = true) : Fares now (some a) deeds (some b)

theorem Fares.refl (now : Nat) (worker : Option Worker) : Fares now worker [] worker := by
  cases worker with
  | none => exact .absent
  | some a => exact .proceeds (.rests _ _) id

/-- Only workers work and give up. -/
def Move.isOfWorker : Move → Bool
  | .work _ | .quit _ => true
  | _ => false

namespace Farm

variable {f f' : Farm} {m : Move} {w : WorkerId} {worker : Worker}

theorem isOfWorker_accept {source : String} {d : Deal} (hd : d ∈ f.acceptDeals source) :
    d.isOfWorker = false := by
  unfold acceptDeals at hd
  split at hd
  · rw [List.mem_singleton.mp hd]
    rfl
  · cases hd

theorem isOfWorker_release {s : SessionId} {d : Deal} (hd : d ∈ releaseDeals s) :
    d.isOfWorker = false := by
  simp only [releaseDeals, List.mem_cons, List.not_mem_nil, or_false] at hd
  rcases hd with rfl | rfl
  · rfl
  · rfl

theorem isOfWorker_abandon {r : RunId} {run : Run} {d : Deal} (hd : d ∈ abandonDeals r run) :
    d.isOfWorker = false := by
  unfold abandonDeals at hd
  split at hd
  · rcases List.mem_cons.mp hd with rfl | hrelease
    · rfl
    · exact isOfWorker_release hrelease
  · cases hd

theorem isOfWorker_walk {r : RunId} {run : Run} {d : Deal} (hd : d ∈ f.walkDeals r run) :
    d.isOfWorker = false := by
  unfold walkDeals at hd
  split at hd
  · split at hd
    · rw [List.mem_singleton.mp hd]
      rfl
    · rw [List.mem_singleton.mp hd]
      rfl
  · rw [List.mem_singleton.mp hd]
    rfl
  · exact isOfWorker_release hd
  · cases hd
  · cases hd

theorem isOfWorker_dealsOf (hother : m.isOfWorker = false) {d : Deal} (hd : d ∈ f.dealsOf m) :
    d.isOfWorker = false := by
  cases m with
  | accept source => exact isOfWorker_accept hd
  | abandon r =>
      cases hrun : f.runs[r]? with
      | none => simp [dealsOf, hrun] at hd
      | some run =>
          simp only [dealsOf, hrun, Option.map_some, Option.getD_some] at hd
          exact isOfWorker_abandon hd
  | walk r =>
      cases hrun : f.runs[r]? with
      | none => simp [dealsOf, hrun] at hd
      | some run =>
          simp only [dealsOf, hrun, Option.map_some, Option.getD_some] at hd
          exact isOfWorker_walk hd
  | hire | dismiss | wait => cases hd
  | close | relay =>
      rw [List.mem_singleton.mp hd]
      rfl
  | work | quit => cases hother

/-- Nobody but a worker has its moves noted in the diary. -/
theorem deeds_dealsOf (hother : m.isOfWorker = false) :
    f.exchange.deeds (f.dealsOf m) = [] :=
  Exchange.deeds_eq_nil fun _ => isOfWorker_dealsOf hother

/-! ## One move -/

theorem workers_accept (f : Farm) (source : String) :
    (f.accept source).2.workers = f.workers := by
  obtain ⟨ledger, exchange, runs, haccept⟩ := f.accept_eq source
  rw [haccept]

theorem workers_abandon (f : Farm) (r : RunId) : (f.abandon r).workers = f.workers := by
  rcases f.abandon_cases r with hsame | ⟨run, -, -, habandon⟩
  · rw [hsame]
  · rw [habandon]
    rfl

theorem workers_walkStep? {r : RunId} (h : f.walkStep? r = some f') :
    f'.workers = f.workers := by
  obtain ⟨run, -, -, hwalks⟩ := walkStep?_cases h
  cases hwalks with
  | turns | receives | hangsUp => rfl
  | @sends _ _ _ sending => cases sending <;> rfl
  | concludes =>
      simp only [conclude]
      split
      · rfl
      · rfl

/-- A worker proceeds, and the others rest. -/
theorem fares_setWorker (worker' : Worker) (deeds : List Deed) {entries : List (WorkerId × Deed)}
    (hw : f.workers[w]? = some worker)
    (hworkers : f'.workers = f.workers.setIfInBounds w worker')
    (hproceeds : Proceeds f.now worker.dismissed worker.occupation deeds worker'.occupation)
    (hdismissed : worker.dismissed = true → worker'.dismissed = true)
    (hentries : entries = deeds.map fun d => (w, d)) (w' : WorkerId) :
    Fares f.now f.workers[w']? (deedsOf w' entries) f'.workers[w']? := by
  obtain ⟨hlt, -⟩ := Array.getElem?_eq_some_iff.mp hw
  by_cases he : w' = w
  · subst he
    have hdeeds : deedsOf w' entries = deeds := by
      simp [hentries, deedsOf, List.filter_map, Function.comp_def]
    have hnext : f'.workers[w']? = some worker' := by simp [hworkers, hlt]
    rw [hw, hdeeds, hnext]
    exact .proceeds hproceeds hdismissed
  · have hdeeds : deedsOf w' entries = [] := by
      simp [hentries, deedsOf, List.filter_map, Function.comp_def, Ne.symm he]
    have hnext : f'.workers[w']? = f.workers[w']? := by simp [hworkers, Ne.symm he]
    rw [hdeeds, hnext]
    exact Fares.refl _ _

theorem fares_hire (f : Farm) (w : WorkerId) : Fares f.now f.workers[w]? [] f.hire.workers[w]? := by
  simp only [hire, Array.getElem?_append]
  split
  · exact Fares.refl _ _
  · next hge =>
    rw [Array.getElem?_eq_none (Nat.le_of_not_lt hge), Array.getElem?_replicate]
    split
    · exact .hired
    · exact .absent

theorem fares_dismiss (f : Farm) (w₀ w : WorkerId) :
    Fares f.now f.workers[w]? [] (f.dismiss w₀).workers[w]? := by
  simp only [dismiss, Array.getElem?_modify]
  split
  · cases f.workers[w]? with
    | none => exact .absent
    | some worker => exact .proceeds (.rests _ _) fun _ => rfl
  · exact Fares.refl _ _

theorem fares_fetch {reply : Option FetchReply} {x : Exchange} (hw : f.workers[w]? = some worker)
    (hfetching : worker.occupation = .fetching) (w' : WorkerId) :
    Fares f.now f.workers[w']?
      (deedsOf w' ((Deed.ofReply? reply).map fun deed => (w, deed)).toList)
      (f.afterFetchStep w worker (reply, x)).workers[w']? := by
  have hmissed : Fares f.now f.workers[w']? (deedsOf w' [])
      (({ f with exchange := x } : Farm).setWorker w
        (worker.missed f.policy f.now)).workers[w']? := by
    refine fares_setWorker (worker.missed f.policy f.now) [] hw rfl ?_ id rfl w'
    rw [hfetching]
    exact .misses _ _
  rcases reply with _ | task | _ | _
  · exact Fares.refl _ _
  · refine fares_setWorker (worker.found task f.now) [.takes task] hw rfl ?_ id rfl w'
    rw [hfetching]
    exact .takes _ _
  · exact hmissed
  · exact hmissed

/-- Whoever has tried to hand in a result is ready again, or waits for room for it. -/
theorem workers_afterSubmission (f : Farm) (w : WorkerId) (worker : Worker) (id : TaskId)
    (submission : Submission) :
    ∃ worker' : Worker,
      (f.afterSubmission w worker id submission).workers = f.workers.setIfInBounds w worker' ∧
      worker'.dismissed = worker.dismissed ∧
      (worker'.occupation = .ready ∨ ∃ s, worker'.occupation = .submitting id s) := by
  cases submission with
  | delivered | failed => exact ⟨worker.resumed, rfl, rfl, .inl rfl⟩
  | waiting s => exact ⟨worker.held id s, rfl, rfl, .inr ⟨s, rfl⟩⟩

theorem fares_workStep? (h : f.workStep? w = some f') (w' : WorkerId) :
    Fares f.now f.workers[w']? (deedsOf w' (f.exchange.deeds (f.dealsOf (.work w))))
      f'.workers[w']? := by
  obtain ⟨worker, hw, hworks⟩ := workStep?_cases h
  simp only [dealsOf, hw, Option.map_some, Option.getD_some, workDeals]
  cases hworks with
  | looks hready =>
      simp only [hready, look]
      cases hdismissed : worker.dismissed with
      | true =>
          refine fares_setWorker worker.look [] hw rfl ?_ (fun _ => hdismissed) rfl w'
          rw [hdismissed, hready, Worker.look, hdismissed]
          exact .stops
      | false =>
          refine fares_setWorker worker.look [.looks] hw rfl ?_ (fun hd => ?_) rfl w'
          · rw [hdismissed, hready, Worker.look, hdismissed]
            exact .looks
          · cases hdismissed.symm.trans hd
  | @fetches hfetching reply x hfetch =>
      simp only [hfetching, Exchange.deeds_singleton, Deal.deed?, hfetch]
      exact fares_fetch hw hfetching w'
  | @submits task doneAt hcomputing hdone =>
      obtain ⟨worker', hworkers, hkept, hnext⟩ := workers_afterSubmission
        { f with exchange := (f.exchange.submit w task.result).2 } w worker task.id
        (f.exchange.submit w task.result).1
      simp only [hcomputing, Exchange.deeds_singleton, Deal.deed?, task.id_result,
        task.outcome_result]
      refine fares_setWorker worker' [.submits task.id task.compute] hw hworkers ?_
        (fun hd => hkept.trans hd) rfl w'
      rw [hcomputing]
      exact .submits _ task hdone hnext
  | @resumes id s hsubmitting submission x hresume =>
      obtain ⟨worker', hworkers, hkept, hnext⟩ := workers_afterSubmission
        { f with exchange := x } w worker id submission
      simp only [hsubmitting, Exchange.deeds_singleton, Deal.deed?]
      refine fares_setWorker worker' [] hw hworkers ?_ (fun hd => hkept.trans hd) rfl w'
      rw [hsubmitting]
      exact .resumes _ id hnext
  | wakes hpausing =>
      refine fares_setWorker worker.resumed [] hw rfl ?_ id ?_ w'
      · rw [hpausing]
        exact .wakes _
      · rw [hpausing]
        rfl

theorem fares_quitStep? (h : f.quitStep? w = some f') (w' : WorkerId) :
    Fares f.now f.workers[w']? [] f'.workers[w']? := by
  obtain ⟨worker, hw, hdismissed, hidle, rfl⟩ := quitStep?_cases h
  refine fares_setWorker worker.stop [] hw rfl ?_ id rfl w'
  rw [hdismissed]
  apply Proceeds.quits
  unfold Worker.isIdle at hidle
  split at hidle
  · next hfetching => exact .inl hfetching
  · next wakeAt hpausing => exact .inr ⟨wakeAt, hpausing⟩
  · cases hidle

/-- What a move means for each worker. -/
theorem fares_move? (hmove : f.move? m = some f') (w : WorkerId) :
    Fares f.now f.workers[w]? (deedsOf w (f.exchange.deeds (f.dealsOf m))) f'.workers[w]? := by
  have hrests : f'.workers = f.workers → Fares f.now f.workers[w]? [] f'.workers[w]? := by
    intro hsame
    rw [hsame]
    exact Fares.refl _ _
  cases m with
  | accept source =>
      rw [deeds_dealsOf rfl]
      rw [← Option.some.inj hmove] at hrests ⊢
      exact hrests (f.workers_accept source)
  | abandon r =>
      rw [deeds_dealsOf rfl]
      rw [← Option.some.inj hmove] at hrests ⊢
      exact hrests (f.workers_abandon r)
  | hire =>
      rw [deeds_dealsOf rfl, ← Option.some.inj hmove]
      exact f.fares_hire w
  | dismiss w₀ =>
      rw [deeds_dealsOf rfl, ← Option.some.inj hmove]
      exact f.fares_dismiss w₀ w
  | close =>
      rw [deeds_dealsOf rfl, ← Option.some.inj hmove]
      exact Fares.refl _ _
  | walk r =>
      rw [deeds_dealsOf rfl]
      exact hrests (workers_walkStep? hmove)
  | relay s =>
      obtain ⟨x, -, rfl⟩ := Option.map_eq_some_iff.mp hmove
      rw [deeds_dealsOf rfl]
      exact Fares.refl _ _
  | work w₀ => exact fares_workStep? hmove w
  | quit w₀ =>
      have hnone : f.exchange.deeds (f.dealsOf (.quit w₀)) = [] := Exchange.deeds_singleton _ _
      rw [hnone]
      exact fares_quitStep? hmove w
  | wait moment =>
      obtain ⟨-, rfl⟩ := wait_cases hmove
      rw [deeds_dealsOf rfl]
      exact Fares.refl _ _

end Farm

end TaskFarm
