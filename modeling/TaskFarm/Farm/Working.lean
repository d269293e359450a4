import TaskFarm.Farm.Basic

/-!
# The workers of a farm

The workers of a farm fetch their tasks from its exchange and hand the results in there.
-/

namespace TaskFarm.Farm

/-- Hire as many workers as the settings say. -/
def hire (f : Farm) : Farm :=
  { f with workers := f.workers ++ Array.replicate f.settings.workers.count Worker.hired }

/-- A worker shall stop. -/
def dismiss (f : Farm) (w : WorkerId) : Farm :=
  { f with workers := f.workers.modify w Worker.dismiss }

/-- A worker that is ready looks for a task or stops. -/
def look (f : Farm) (w : WorkerId) (worker : Worker) : Farm :=
  let f := f.setWorker w worker.look
  if worker.dismissed then f else { f with exchange := f.exchange.startFetch w }

/-- The fetch of a worker has made a step. -/
def afterFetchStep (f : Farm) (w : WorkerId) (worker : Worker) : Exchange.FetchStep → Farm
  | (none, exchange) => { f with exchange }
  | (some (.task task), exchange) => { f with exchange }.setWorker w (worker.found task f.now)
  | (some _, exchange) => { f with exchange }.setWorker w (worker.missed f.policy f.now)

/-- A worker has tried to hand in the result of a task. -/
def afterSubmission (f : Farm) (w : WorkerId) (worker : Worker) (id : TaskId) : Submission → Farm
  | .waiting s => f.setWorker w (worker.held id s)
  | .delivered | .failed _ => f.setWorker w worker.resumed

/-- A worker hands in the result of a task. -/
def submit (f : Farm) (w : WorkerId) (worker : Worker) (task : Task) : Farm :=
  let (submission, exchange) := f.exchange.submit w task.result
  { f with exchange }.afterSubmission w worker task.id submission

/-- One step of a worker, unless it has to wait or has ended. -/
def workStep? (f : Farm) (w : WorkerId) : Option Farm :=
  (f.workers[w]?).bind fun worker =>
    match worker.occupation with
    | .ready => some (f.look w worker)
    | .fetching => (f.exchange.fetchStep? w f.now).map (f.afterFetchStep w worker)
    | .computing task doneAt => if doneAt ≤ f.now then some (f.submit w worker task) else none
    | .submitting id s =>
      (f.exchange.resumeSubmit? s w id).map fun (submission, exchange) =>
        { f with exchange }.afterSubmission w worker id submission
    | .pausing wakeAt => if wakeAt ≤ f.now then some (f.setWorker w worker.resumed) else none
    | .stopped | .crashed => none

/-- A dismissed worker gives up its fetch or its wait. -/
def quitStep? (f : Farm) (w : WorkerId) : Option Farm :=
  (f.workers[w]?).bind fun worker =>
    if worker.dismissed && worker.isIdle then
      some ({ f with exchange := f.exchange.leaveLine w }.setWorker w worker.stop)
    else
      none

end TaskFarm.Farm
