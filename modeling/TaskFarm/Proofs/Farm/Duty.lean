import TaskFarm.Proofs.Farm.Diary

/-!
# No worker loses a task

A worker goes from round to round: it looks for a task, and if it takes one, it hands in what the
task has come to before it looks again or stops.  Dismissing it changes nothing about that, whatever
it is doing at the time: it gives up a fetch or a wait, which leaves the queue as it is, and it looks
for no further task.
-/

namespace TaskFarm

/-- The deeds of a round that is over: one without a task, or one that took a task. -/
def roundDeeds : Option Task → List Deed
  | none => [.looks]
  | some task => [.looks, .takes task, .submits task.id task.compute]

/-- The deeds of the round that is under way. -/
def Occupation.deeds : Occupation → List Deed
  | .fetching => [.looks]
  | .computing task _ => [.looks, .takes task]
  | _ => []

/-- The deeds of a worker are rounds that are over and what the round under way has come to. -/
def InRounds (deeds : List Deed) (o : Occupation) : Prop :=
  ∃ rounds : List (Option Task), deeds = rounds.flatMap roundDeeds ++ o.deeds

namespace Proceeds

variable {now : Nat} {dismissed : Bool} {o o' : Occupation} {deeds new : List Deed}

theorem inRounds (h : Proceeds now dismissed o new o') (hrounds : InRounds deeds o) :
    InRounds (deeds ++ new) o' := by
  obtain ⟨rounds, rfl⟩ := hrounds
  have hover : ∀ round : Option Task, rounds.flatMap roundDeeds ++ roundDeeds round =
      (rounds ++ [round]).flatMap roundDeeds := by simp
  cases h with
  | rests => exact ⟨rounds, by simp⟩
  | looks | stops | wakes => exact ⟨rounds, by simp [Occupation.deeds]⟩
  | takes _ task => exact ⟨rounds, by simp [Occupation.deeds]⟩
  | misses => exact ⟨rounds ++ [none], by simp [Occupation.deeds, roundDeeds]⟩
  | submits _ task _ hnext =>
      refine ⟨rounds ++ [some task], ?_⟩
      rcases hnext with rfl | ⟨s, rfl⟩ <;> simp [Occupation.deeds, roundDeeds]
  | resumes _ _ hnext =>
      refine ⟨rounds, ?_⟩
      rcases hnext with rfl | ⟨s, rfl⟩ <;> simp [Occupation.deeds]
  | quits hidle =>
      rcases hidle with rfl | ⟨wakeAt, rfl⟩
      · exact ⟨rounds ++ [none], by simp [Occupation.deeds, roundDeeds]⟩
      · exact ⟨rounds, by simp [Occupation.deeds]⟩

/-- A worker that has stopped does nothing any more. -/
theorem of_stopped (h : Proceeds now dismissed .stopped new o') : new = [] ∧ o' = .stopped := by
  cases h with
  | rests => exact ⟨rfl, rfl⟩
  | quits hidle =>
      obtain hfetching | ⟨wakeAt, hpausing⟩ := hidle
      · cases hfetching
      · cases hpausing

/-- A dismissed worker does not look for another task. -/
theorem not_looks (h : Proceeds now true o new o') : Deed.looks ∉ new := by
  cases h <;> simp

/-- Only a worker that is ready and not dismissed looks for a task. -/
theorem of_looks (h : Proceeds now dismissed o new o') (hlooks : Deed.looks ∈ new) :
    o = .ready ∧ dismissed = false := by
  cases h <;> simp_all

/-- A worker that computes goes on with its task until it hands in what the task has come to. -/
theorem of_computing {task : Task} {doneAt : Nat}
    (h : Proceeds now dismissed (.computing task doneAt) new o') :
    (new = [] ∧ o' = .computing task doneAt) ∨ new = [.submits task.id task.compute] := by
  cases h with
  | rests => exact .inl ⟨rfl, rfl⟩
  | submits => exact .inr rfl
  | quits hidle =>
      obtain hfetching | ⟨wakeAt, hpausing⟩ := hidle
      · cases hfetching
      · cases hpausing

end Proceeds

/-! ## Farms with a diary -/

/-- A farm with a diary of its workers. -/
structure Attended where
  farm : Farm
  diary : List (WorkerId × Deed)

/-- Something that happens at a farm whose exchange serves others as well. -/
inductive Happening where
  | move (m : Move)
  /-- Somebody else deals with the exchange, not as a worker. -/
  | deal (d : Deal)

namespace Attended

def opened (naming : Naming) (settings : Settings) (books : Bookkeeper) : Attended :=
  ⟨.openedWith naming settings books, []⟩

/-- The farm after a happening, if that is possible. -/
def farmAfter? (a : Attended) : Happening → Option Farm
  | .move m => a.farm.move? m
  | .deal d =>
    if d.isOfWorker then none else (a.farm.exchange.deal? d).map ({ a.farm with exchange := · })

/-- What a happening adds to the diary. -/
def news (a : Attended) : Happening → List (WorkerId × Deed)
  | .move m => a.farm.exchange.deeds (a.farm.dealsOf m)
  | .deal _ => []

def happen? (a : Attended) (h : Happening) : Option Attended :=
  (a.farmAfter? h).map fun farm => ⟨farm, a.diary ++ a.news h⟩

/-- The farm and its diary after a list of happenings, if each of them is possible at its time. -/
def happens? (a : Attended) : List Happening → Option Attended
  | [] => some a
  | h :: rest => (a.happen? h).bind fun a => a.happens? rest

/-- What a worker has done. -/
def deeds (a : Attended) (w : WorkerId) : List Deed :=
  deedsOf w a.diary

def queue (a : Attended) : List Task :=
  a.farm.exchange.queue.buffer

/-- What a worker is doing. -/
def occupation? (a : Attended) (w : WorkerId) : Option Occupation :=
  (a.farm.workers[w]?).map Worker.occupation

variable {a a' : Attended} {h : Happening} {history : List Happening} {w : WorkerId}
  {worker : Worker} {task : Task} {doneAt : Nat}

theorem happen?_cases (hh : a.happen? h = some a') :
    a.farmAfter? h = some a'.farm ∧ a'.diary = a.diary ++ a.news h := by
  obtain ⟨farm, hfarm, rfl⟩ := Option.map_eq_some_iff.mp hh
  exact ⟨hfarm, rfl⟩

theorem deeds_happen? (hh : a.happen? h = some a') (w : WorkerId) :
    a'.deeds w = a.deeds w ++ deedsOf w (a.news h) := by
  rw [deeds, (happen?_cases hh).2, deedsOf_append, deeds]

theorem fares_happen? (hh : a.happen? h = some a') (w : WorkerId) :
    Fares a.farm.now a.farm.workers[w]? (deedsOf w (a.news h)) a'.farm.workers[w]? := by
  obtain ⟨hfarm, -⟩ := happen?_cases hh
  cases h with
  | move m => exact Farm.fares_move? hfarm w
  | deal d =>
      simp only [farmAfter?] at hfarm
      split at hfarm
      · cases hfarm
      · obtain ⟨x, -, hx⟩ := Option.map_eq_some_iff.mp hfarm
        rw [← hx]
        exact Fares.refl _ _

/-- What becomes of a worker that is there already. -/
theorem proceeds_happen? (hh : a.happen? h = some a') (hw : a.farm.workers[w]? = some worker) :
    ∃ worker', a'.farm.workers[w]? = some worker' ∧
      Proceeds a.farm.now worker.dismissed worker.occupation (deedsOf w (a.news h))
        worker'.occupation ∧
      (worker.dismissed = true → worker'.dismissed = true) := by
  have hfares := fares_happen? hh w
  rw [hw] at hfares
  generalize hnext : a'.farm.workers[w]? = next at hfares
  cases hfares with
  | proceeds hproceeds hdismissed => exact ⟨_, rfl, hproceeds, hdismissed⟩

theorem passes_happen? (hh : a.happen? h = some a') :
    ∃ entered, (tasksTaken (a.news h)).map Prod.snd ++ a'.queue = a.queue ++ entered := by
  obtain ⟨hfarm, -⟩ := happen?_cases hh
  cases h with
  | move m => exact Exchange.passes_deals? (Farm.deals?_dealsOf hfarm)
  | deal d =>
      simp only [farmAfter?] at hfarm
      split at hfarm
      · cases hfarm
      · next hother =>
        obtain ⟨x, hdeal, hx⟩ := Option.map_eq_some_iff.mp hfarm
        obtain ⟨entered, hpasses⟩ := Exchange.passes_deal? hdeal
        rw [d.deed?_eq_none (Bool.eq_false_iff.mpr hother)] at hpasses
        refine ⟨entered, ?_⟩
        simp only [queue, ← hx]
        exact hpasses

/-! ## Whole histories -/

/-- Every worker is in its rounds, and those who are not hired yet have done nothing. -/
def AllInRounds (a : Attended) : Prop :=
  ∀ w, InRounds (a.deeds w) ((a.occupation? w).getD .ready)

theorem allInRounds_opened (naming : Naming) (settings : Settings) (books : Bookkeeper) :
    (opened naming settings books).AllInRounds :=
  fun _ => ⟨[], rfl⟩

theorem AllInRounds.happen (hrounds : a.AllInRounds) (hh : a.happen? h = some a') :
    a'.AllInRounds := by
  intro w
  have hbefore := hrounds w
  have hfares := fares_happen? hh w
  rw [deeds_happen? hh w]
  simp only [occupation?] at hbefore ⊢
  generalize a.farm.workers[w]? = before at hbefore hfares
  generalize a'.farm.workers[w]? = after at hfares
  generalize deedsOf w (a.news h) = new at hfares
  cases hfares with
  | absent | hired =>
      rw [List.append_nil]
      exact hbefore
  | proceeds hproceeds => exact hproceeds.inRounds hbefore

theorem AllInRounds.happens (hrounds : a.AllInRounds) (hh : a.happens? history = some a') :
    a'.AllInRounds := by
  induction history generalizing a with
  | nil => exact Option.some.inj hh ▸ hrounds
  | cons h rest ih =>
      obtain ⟨next, hfirst, hrest⟩ := Option.bind_eq_some_iff.mp hh
      exact ih (hrounds.happen hfirst) hrest

/-- Whatever happens, a worker that has stopped does nothing any more. -/
theorem stays_stopped (hstopped : a.occupation? w = some .stopped)
    (hh : a.happens? history = some a') :
    a'.occupation? w = some .stopped ∧ a'.deeds w = a.deeds w := by
  induction history generalizing a with
  | nil =>
      obtain rfl := Option.some.inj hh
      exact ⟨hstopped, rfl⟩
  | cons h rest ih =>
      obtain ⟨next, hfirst, hrest⟩ := Option.bind_eq_some_iff.mp hh
      obtain ⟨worker, hw, ho⟩ := Option.map_eq_some_iff.mp hstopped
      obtain ⟨worker', hw', hproceeds, -⟩ := proceeds_happen? hfirst hw
      rw [ho] at hproceeds
      obtain ⟨hnone, ho'⟩ := hproceeds.of_stopped
      obtain ⟨hstays, hdeeds⟩ := ih (a := next) (by simp [occupation?, hw', ho']) hrest
      refine ⟨hstays, hdeeds.trans ?_⟩
      rw [deeds_happen? hfirst w, hnone, List.append_nil]

/-- Whatever happens, a dismissed worker looks for no further task. -/
theorem looks_no_more (hw : a.farm.workers[w]? = some worker) (hdismissed : worker.dismissed = true)
    (hh : a.happens? history = some a') :
    ∃ new, a'.deeds w = a.deeds w ++ new ∧ Deed.looks ∉ new := by
  induction history generalizing a worker with
  | nil =>
      obtain rfl := Option.some.inj hh
      exact ⟨[], (List.append_nil _).symm, List.not_mem_nil⟩
  | cons h rest ih =>
      obtain ⟨next, hfirst, hrest⟩ := Option.bind_eq_some_iff.mp hh
      obtain ⟨worker', hw', hproceeds, hkept⟩ := proceeds_happen? hfirst hw
      rw [hdismissed] at hproceeds
      obtain ⟨new, hdeeds, hnew⟩ := ih hw' (hkept hdismissed) hrest
      refine ⟨deedsOf w (a.news h) ++ new, ?_, ?_⟩
      · rw [hdeeds, deeds_happen? hfirst w, List.append_assoc]
      · exact fun hlooks => (List.mem_append.mp hlooks).elim hproceeds.not_looks hnew

/-! ## What a worker owes -/

/-- How workers and their tasks stand at a farm, whatever has happened and whatever happens next. -/
structure KeepsDuty (a : Attended) : Prop where
  /-- Whoever took a task has handed in what it has come to before it looked again or stopped,
  and just once; only a task that is being computed is still to be handed in. -/
  rounds : ∀ w worker, a.farm.workers[w]? = some worker → InRounds (a.deeds w) worker.occupation
  /-- A worker that has a task keeps it until it hands in its result. -/
  keeps : ∀ w task doneAt h a', a.occupation? w = some (.computing task doneAt) →
    a.happen? h = some a' →
    (a'.occupation? w = some (.computing task doneAt) ∧ a'.deeds w = a.deeds w) ∨
      a'.deeds w = a.deeds w ++ [.submits task.id task.compute]
  /-- It can hand the result in as soon as the task has taken its time. -/
  handsIn : ∀ w task doneAt, a.occupation? w = some (.computing task doneAt) →
    ∃ history a', a.happens? history = some a' ∧
      a'.deeds w = a.deeds w ++ [.submits task.id task.compute]
  stopped : ∀ w history a', a.occupation? w = some .stopped → a.happens? history = some a' →
    a'.occupation? w = some .stopped ∧ a'.deeds w = a.deeds w
  /-- A task leaves the queue at its head, and only because a worker takes it. -/
  passes : ∀ h a', a.happen? h = some a' →
    ∃ entered, (tasksTaken (a.news h)).map Prod.snd ++ a'.queue = a.queue ++ entered
  /-- What a move does at the exchange is what the diary is written from. -/
  noted : ∀ m f', a.farm.move? m = some f' →
    a.farm.exchange.deals? (a.farm.dealsOf m) = some f'.exchange
  /-- A dismissed worker that waits can give up at any time, which leaves the queue as it is. -/
  givesUp : ∀ w worker, a.farm.workers[w]? = some worker → worker.dismissed = true →
    worker.isIdle = true →
    ∃ a', a.happen? (.move (.quit w)) = some a' ∧ a'.occupation? w = some .stopped ∧
      a'.farm.exchange.queue = a.farm.exchange.queue ∧ a'.diary = a.diary
  looks : ∀ w h a', a.happen? h = some a' → Deed.looks ∈ deedsOf w (a.news h) →
    ∃ worker, a.farm.workers[w]? = some worker ∧ worker.occupation = .ready ∧
      worker.dismissed = false
  /-- A dismissed worker that is about to look for a task stops instead. -/
  stops : ∀ w worker, a.farm.workers[w]? = some worker → worker.dismissed = true →
    worker.occupation = .ready →
    ∃ a', a.happen? (.move (.work w)) = some a' ∧ a'.occupation? w = some .stopped ∧
      a'.farm.exchange = a.farm.exchange ∧ a'.diary = a.diary
  looksNoMore : ∀ w worker history a', a.farm.workers[w]? = some worker →
    worker.dismissed = true → a.happens? history = some a' →
    ∃ new, a'.deeds w = a.deeds w ++ new ∧ Deed.looks ∉ new

theorem news_work (hw : a.farm.workers[w]? = some worker) :
    a.news (.move (.work w)) = a.farm.exchange.deeds (Farm.workDeals a.farm.now w worker) := by
  simp [news, Farm.dealsOf, hw]

theorem keeps_happen? (ho : a.occupation? w = some (.computing task doneAt))
    (hh : a.happen? h = some a') :
    (a'.occupation? w = some (.computing task doneAt) ∧ a'.deeds w = a.deeds w) ∨
      a'.deeds w = a.deeds w ++ [.submits task.id task.compute] := by
  obtain ⟨worker, hw, hcomputing⟩ := Option.map_eq_some_iff.mp ho
  obtain ⟨worker', hw', hproceeds, -⟩ := proceeds_happen? hh hw
  rw [hcomputing] at hproceeds
  rw [deeds_happen? hh w]
  obtain ⟨hnone, hcomputing'⟩ | hsubmits := hproceeds.of_computing
  · exact .inl ⟨by simp [occupation?, hw', hcomputing'], by rw [hnone, List.append_nil]⟩
  · exact .inr (by rw [hsubmits])

/-- A worker whose task has taken its time hands in the result in its next step. -/
theorem hands_in_now (ho : a.occupation? w = some (.computing task doneAt))
    (hdone : doneAt ≤ a.farm.now) :
    ∃ a', a.happen? (.move (.work w)) = some a' ∧
      a'.deeds w = a.deeds w ++ [.submits task.id task.compute] := by
  obtain ⟨worker, hw, hcomputing⟩ := Option.map_eq_some_iff.mp ho
  have hstep : a.farmAfter? (.move (.work w)) = some (a.farm.submit w worker task) := by
    simp [farmAfter?, Farm.move?, Farm.workStep?, hw, hcomputing, hdone]
  have hnews : a.news (.move (.work w)) = [(w, .submits task.id task.compute)] := by
    simp [news_work hw, Farm.workDeals, hcomputing, Exchange.deeds_singleton, Deal.deed?,
      task.id_result, task.outcome_result]
  have hh : a.happen? (.move (.work w)) =
      some ⟨a.farm.submit w worker task, a.diary ++ a.news (.move (.work w))⟩ := by
    simp [happen?, hstep]
  exact ⟨_, hh, by rw [deeds_happen? hh w, hnews, deedsOf_self]⟩

theorem hands_in (ho : a.occupation? w = some (.computing task doneAt)) :
    ∃ history a', a.happens? history = some a' ∧
      a'.deeds w = a.deeds w ++ [.submits task.id task.compute] := by
  by_cases hdone : doneAt ≤ a.farm.now
  · obtain ⟨a', hh, hdeeds⟩ := hands_in_now ho hdone
    exact ⟨[.move (.work w)], a', by simp [happens?, hh], hdeeds⟩
  · -- time has to pass first
    let later : Attended := ⟨{ a.farm with now := doneAt }, a.diary⟩
    have hwait : a.happen? (.move (.wait doneAt)) = some later := by
      simp [happen?, farmAfter?, Farm.move?, Nat.lt_of_not_le hdone, news, Farm.dealsOf,
        Exchange.deeds, later]
    obtain ⟨a', hh, hdeeds⟩ := hands_in_now (a := later) ho (Nat.le_refl doneAt)
    exact ⟨[.move (.wait doneAt), .move (.work w)], a', by simp [happens?, hwait, hh], hdeeds⟩

theorem occupation?_setWorker {f f' : Farm} {diary : List (WorkerId × Deed)}
    (hw : f.workers[w]? = some worker) (worker' : Worker)
    (hworkers : f'.workers = f.workers.setIfInBounds w worker') :
    (⟨f', diary⟩ : Attended).occupation? w = some worker'.occupation := by
  obtain ⟨hlt, -⟩ := Array.getElem?_eq_some_iff.mp hw
  simp [occupation?, hworkers, hlt]

theorem gives_up (hw : a.farm.workers[w]? = some worker) (hdismissed : worker.dismissed = true)
    (hidle : worker.isIdle = true) :
    ∃ a', a.happen? (.move (.quit w)) = some a' ∧ a'.occupation? w = some .stopped ∧
      a'.farm.exchange.queue = a.farm.exchange.queue ∧ a'.diary = a.diary := by
  let gone : Farm := { a.farm with exchange := a.farm.exchange.leaveLine w }.setWorker w worker.stop
  have hquit : a.happen? (.move (.quit w)) = some ⟨gone, a.diary⟩ := by
    simp [happen?, farmAfter?, Farm.move?, Farm.quitStep?, hw, hdismissed, hidle, news,
      Farm.dealsOf, Exchange.deeds_singleton, Deal.deed?, gone]
  exact ⟨_, hquit, occupation?_setWorker hw worker.stop rfl, rfl, rfl⟩

theorem stops_at_head (hw : a.farm.workers[w]? = some worker) (hdismissed : worker.dismissed = true)
    (hready : worker.occupation = .ready) :
    ∃ a', a.happen? (.move (.work w)) = some a' ∧ a'.occupation? w = some .stopped ∧
      a'.farm.exchange = a.farm.exchange ∧ a'.diary = a.diary := by
  have hstep : a.happen? (.move (.work w)) = some ⟨a.farm.setWorker w worker.look, a.diary⟩ := by
    simp [happen?, farmAfter?, Farm.move?, Farm.workStep?, hw, hready, Farm.look, hdismissed,
      news_work hw, Farm.workDeals, Exchange.deeds]
  have hstopped : worker.look.occupation = .stopped := by simp [Worker.look, hdismissed]
  refine ⟨_, hstep, ?_, rfl, rfl⟩
  rw [occupation?_setWorker hw worker.look rfl, hstopped]

theorem looks_only_when_wanted (hh : a.happen? h = some a')
    (hlooks : Deed.looks ∈ deedsOf w (a.news h)) :
    ∃ worker, a.farm.workers[w]? = some worker ∧ worker.occupation = .ready ∧
      worker.dismissed = false := by
  have hfares := fares_happen? hh w
  cases hw : a.farm.workers[w]? with
  | none =>
      rw [hw] at hfares
      generalize deedsOf w (a.news h) = new at hfares hlooks
      generalize a'.farm.workers[w]? = after at hfares
      cases hfares with
      | absent | hired => cases hlooks
  | some worker =>
      obtain ⟨worker', -, hproceeds, -⟩ := proceeds_happen? hh hw
      exact ⟨worker, rfl, hproceeds.of_looks hlooks⟩

theorem AllInRounds.keepsDuty (hrounds : a.AllInRounds) : a.KeepsDuty := by
  constructor
  · intro w worker hw
    have hw' := hrounds w
    rwa [occupation?, hw] at hw'
  · exact fun _ _ _ _ _ => keeps_happen?
  · exact fun _ _ _ => hands_in
  · exact fun _ _ _ => stays_stopped
  · exact fun _ _ => passes_happen?
  · exact fun _ _ => Farm.deals?_dealsOf
  · exact fun _ _ => gives_up
  · exact fun _ _ _ => looks_only_when_wanted
  · exact fun _ _ => stops_at_head
  · exact fun _ _ _ _ => looks_no_more

/-- At every farm, with any number of workers, whatever tasks come into the queue and whenever the
workers are dismissed, none of them loses a task. -/
theorem happens?_keepsDuty {naming : Naming} {settings : Settings} {books : Bookkeeper}
    (hh : (opened naming settings books).happens? history = some a) : a.KeepsDuty :=
  ((allInRounds_opened naming settings books).happens hh).keepsDuty

/-- Two workers are dismissed, one while it computes and the other while it looks for a task.  The
task that is queued meanwhile stays in the queue, and the other one is handed in. -/
theorem happens?_keepsDuty_dismissed :
    let first : Task := .make ⟨7⟩ .add 1.0 2.0 20
    let second : Task := .make ⟨8⟩ .div 1.0 0.0 20
    ∃ history a, (opened .counting ⟨.standard, .forWorkers 2, ⟨2, 3000⟩, 1000⟩
        .regular).happens? history = some a ∧
      a.diary = [(0, .looks), (1, .looks), (0, .takes first), (0, .submits first.id first.compute)] ∧
      a.occupation? 0 = some .stopped ∧ a.occupation? 1 = some .stopped ∧ a.queue = [second] ∧
      a.KeepsDuty := by
  refine ⟨[.deal .openSession, .deal (.send 0 5 (.make ⟨7⟩ .add 1.0 2.0 20)), .deal (.relay 0),
    .deal (.relay 0), .move .hire, .move (.work 0), .move (.work 1), .move (.work 0),
    .move (.dismiss 0), .move (.dismiss 1), .deal (.send 0 5 (.make ⟨8⟩ .div 1.0 0.0 20)),
    .deal (.relay 0), .deal (.relay 0), .move (.quit 1), .move (.wait 20), .move (.work 0),
    .move (.work 0)], ?ended, ?played, ?written, ?stopped₀, ?stopped₁, ?queued,
    happens?_keepsDuty ?played⟩
  case played => exact rfl
  case written => exact rfl
  case stopped₀ => exact rfl
  case stopped₁ => exact rfl
  case queued => exact rfl

end Attended

end TaskFarm
