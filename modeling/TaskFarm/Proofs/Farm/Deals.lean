import TaskFarm.Proofs.Exchange.Fifo
import TaskFarm.Proofs.Farm.Steps

/-!
# The moves of a farm as deals at its exchange

Whatever a move does at the exchange of a farm is done by deals.  So what every deal keeps, every
move keeps.
-/

namespace TaskFarm

namespace Exchange

/-- A property of exchanges that every deal keeps. -/
def Lasting (P : Exchange → Prop) : Prop :=
  ∀ x x' d, P x → x.deal? d = some x' → P x'

/-- The relays wait at the queue with the tasks that they hold, and no channel holds too much. -/
def InStep (x : Exchange) : Prop :=
  ∃ (capacity : Nat) (j : Journal), j.Matches capacity x

theorem inStep_opened (settings : QueueSettings) : (opened settings).InStep :=
  ⟨_, _, Journaled.matches_opened settings⟩

theorem lasting_inStep : Lasting InStep := by
  rintro x x' d ⟨capacity, j, hmatches⟩ hdeal
  exact ⟨capacity, _, (conveys_deal? hdeal).matches hmatches⟩

/-- The exchange after a list of deals, if each of them is possible at its time. -/
def deals? (x : Exchange) : List Deal → Option Exchange
  | [] => some x
  | d :: rest => (x.deal? d).bind fun x => x.deals? rest

theorem Lasting.deals {P : Exchange → Prop} (hP : Lasting P) {x x' : Exchange} {deals : List Deal}
    (h : P x) (hdeals : x.deals? deals = some x') : P x' := by
  induction deals generalizing x with
  | nil => exact Option.some.inj hdeals ▸ h
  | cons d rest ih =>
      obtain ⟨next, hdeal, hrest⟩ := Option.bind_eq_some_iff.mp hdeals
      exact ih (hP x next d h hdeal) hrest

theorem deals?_singleton (x : Exchange) (d : Deal) : x.deals? [d] = x.deal? d :=
  Option.bind_fun_some _

end Exchange

namespace Farm

variable {f f' : Farm} {m : Move} {r : RunId} {w : WorkerId}

/-! ## What is dealt -/

/-- The deals of an expression that is taken in: its run gets a session. -/
def acceptDeals (f : Farm) (source : String) : List Deal :=
  match f.books.create f.ledger (.processing f.freshExpression source), Expr.parse source with
  | .ok _, .ok _ => [.openSession]
  | _, _ => []

def releaseDeals (s : SessionId) : List Deal :=
  [.dropTasks s, .dropResults s]

def abandonDeals (r : RunId) (run : Run) : List Deal :=
  if run.isUnderWay then .withdrawSend run.session r :: releaseDeals run.session else []

def walkDeals (f : Farm) (r : RunId) (run : Run) : List Deal :=
  match run.walk.stage with
  | .offering _ task =>
    if f.exchange.isSending run.session r then
      [.resumeSend run.session r]
    else
      [.send run.session r task]
  | .awaiting _ _ => [.receive run.session]
  | .finished _ => releaseDeals run.session
  | .walking | .stuck => []

def workDeals (now : Nat) (w : WorkerId) (worker : Worker) : List Deal :=
  match worker.occupation with
  | .ready => if worker.dismissed then [] else [.startFetch w]
  | .fetching => [.fetch w now]
  | .computing task _ => [.submit w task.result]
  | .submitting id s => [.resumeSubmit s w id]
  | .pausing _ | .stopped | .crashed => []

/-- What a move does at the exchange, in this order. -/
def dealsOf (f : Farm) : Move → List Deal
  | .accept source => f.acceptDeals source
  | .abandon r => ((f.runs[r]?).map (abandonDeals r)).getD []
  | .close => [.close]
  | .walk r => ((f.runs[r]?).map (f.walkDeals r)).getD []
  | .relay s => [.relay s]
  | .work w => ((f.workers[w]?).map (workDeals f.now w)).getD []
  | .quit w => [.leaveLine w]
  | .hire | .dismiss _ | .wait _ => []

/-! ## Nothing else is done at the exchange -/

theorem deals?_accept (f : Farm) (source : String) :
    f.exchange.deals? (f.acceptDeals source) = some (f.accept source).2.exchange := by
  unfold accept acceptDeals
  simp only
  cases hcreate : f.books.create f.ledger (.processing f.freshExpression source) with
  | error e => rfl
  | ok ledger =>
      cases hparse : Expr.parse source with
      | ok arena => rfl
      | error cause =>
          simp only
          split
          · rfl
          · rfl

theorem deals?_abandon (f : Farm) (r : RunId) :
    f.exchange.deals? (f.dealsOf (.abandon r)) = some (f.abandon r).exchange := by
  cases hrun : f.runs[r]? with
  | none => simp [abandon, dealsOf, hrun, Exchange.deals?]
  | some run =>
      simp only [abandon, dealsOf, hrun, Option.map_some, Option.getD_some, abandonDeals]
      split
      · rfl
      · rfl

theorem deals?_walkStep? (h : f.walkStep? r = some f') :
    f.exchange.deals? (f.dealsOf (.walk r)) = some f'.exchange := by
  obtain ⟨run, hrun, -, hwalks⟩ := walkStep?_cases h
  simp only [dealsOf, hrun, Option.map_some, Option.getD_some, walkDeals]
  cases hwalks with
  | turns hstage =>
      rw [hstage]
      rfl
  | @sends _ task hstage sending x hsend =>
      have hsent : (({ f with exchange := x } : Farm).afterSending r run sending).exchange = x := by
        cases sending <;> rfl
      simp only [hstage, hsent]
      unfold Exchange.attemptSend? at hsend
      split at hsend
      · next hsending =>
        rw [if_pos hsending, Exchange.deals?_singleton]
        exact congrArg (Option.map Prod.snd) hsend
      · next hsending =>
        rw [if_neg hsending, Exchange.deals?_singleton]
        exact congrArg (Option.map Prod.snd) hsend
  | receives hstage hreceive =>
      rw [hstage]
      exact congrArg (some ∘ Prod.snd) hreceive
  | @hangsUp _ _ hstage x hreceive =>
      have hsame : x = f.exchange := by
        rcases Exchange.receive_cases hreceive with ⟨-, hsame⟩ | ⟨_, _, _, -, hresult, -⟩
        · exact hsame
        · cases hresult
      rw [hstage]
      exact (congrArg (some ∘ Prod.snd) hreceive).trans (congrArg some hsame)
  | concludes hstage =>
      rw [hstage]
      simp only [conclude]
      split
      · rfl
      · rfl

theorem exchange_afterSubmission (f : Farm) (w : WorkerId) (worker : Worker) (id : TaskId)
    (submission : Submission) :
    (f.afterSubmission w worker id submission).exchange = f.exchange := by
  cases submission <;> rfl

theorem exchange_afterFetchStep (f : Farm) (w : WorkerId) (worker : Worker)
    (step : Exchange.FetchStep) : (f.afterFetchStep w worker step).exchange = step.2 := by
  unfold afterFetchStep
  split
  · rfl
  · rfl
  · rfl

theorem deals?_workStep? (h : f.workStep? w = some f') :
    f.exchange.deals? (f.dealsOf (.work w)) = some f'.exchange := by
  obtain ⟨worker, hw, hworks⟩ := workStep?_cases h
  simp only [dealsOf, hw, Option.map_some, Option.getD_some, workDeals]
  cases hworks with
  | looks hready =>
      simp only [hready, look]
      split
      · rfl
      · rfl
  | fetches hfetching hfetch =>
      rw [hfetching, exchange_afterFetchStep, Exchange.deals?_singleton]
      exact congrArg (Option.map Prod.snd) hfetch
  | submits hcomputing =>
      rw [hcomputing, submit, exchange_afterSubmission]
      rfl
  | resumes hsubmitting hresume =>
      rw [hsubmitting, exchange_afterSubmission, Exchange.deals?_singleton]
      exact congrArg (Option.map Prod.snd) hresume
  | wakes hpausing =>
      rw [hpausing]
      rfl

/-- A move does to the exchange what its deals do. -/
theorem deals?_dealsOf (hmove : f.move? m = some f') :
    f.exchange.deals? (f.dealsOf m) = some f'.exchange := by
  cases m with
  | accept source =>
      rw [← Option.some.inj hmove]
      exact f.deals?_accept source
  | abandon r =>
      rw [← Option.some.inj hmove]
      exact f.deals?_abandon r
  | hire | dismiss | close =>
      rw [← Option.some.inj hmove]
      rfl
  | walk r => exact deals?_walkStep? hmove
  | relay s =>
      obtain ⟨x, hx, rfl⟩ := Option.map_eq_some_iff.mp hmove
      exact (Exchange.deals?_singleton _ _).trans hx
  | work w => exact deals?_workStep? hmove
  | quit w =>
      obtain ⟨worker, -, -, -, rfl⟩ := quitStep?_cases hmove
      rfl
  | wait moment =>
      obtain ⟨-, rfl⟩ := wait_cases hmove
      rfl

theorem kept_move? {P : Exchange → Prop} (hP : Exchange.Lasting P) (h : P f.exchange)
    (hmove : f.move? m = some f') : P f'.exchange :=
  hP.deals h (deals?_dealsOf hmove)

end Farm

end TaskFarm
