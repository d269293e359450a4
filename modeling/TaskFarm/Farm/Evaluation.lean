import TaskFarm.Farm.Move

/-!
# One expression at a time

Since a walk has one task out at a time, one worker is enough to bring it to its end.  An evaluation
makes just the moves that its run needs: the walk goes on if it can, then the relay of its session,
then the first worker, and if all of them have to wait, time passes up to the next timer.
-/

namespace TaskFarm.Farm

def waitStep? (f : Farm) : Option Farm :=
  f.nextTimer?.bind fun moment => f.move? (.wait moment)

/-- One move that brings a run forward, unless the run is over. -/
def errandStep? (r : RunId) (f : Farm) : Option Farm :=
  (f.runs[r]?).bind fun run =>
    if run.isUnderWay then
      (f.firstMove? [.walk r, .relay run.session, .work 0]).or f.waitStep?
    else
      none

/-- A bound on the moves that a run needs: each node of its tree takes a few. -/
def errandPatience (f : Farm) (r : RunId) : Nat :=
  match f.runs[r]? with
  | some run => 16 * (run.plan.arena.size + 2)
  | none => 0

def runErrand (f : Farm) (r : RunId) : Farm :=
  settleBy (errandStep? r) (f.errandPatience r) f

/-- Take an expression in and evaluate it.  There is no outcome if there is nobody to work. -/
def evaluate (f : Farm) (source : String) : Option (Except FarmError Float) × Farm :=
  match f.accept source with
  | (.error e, f) => (some (.error e), f)
  | (.ok r, f) =>
    let f := f.runErrand r
    (f.outcome? r, f)

end TaskFarm.Farm
