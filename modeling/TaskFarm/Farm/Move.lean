import TaskFarm.Farm.Running
import TaskFarm.Farm.Working

/-!
# The moves of a farm

Everything that happens at a farm is a move: somebody outside asks for something, a walk, a relay or
a worker makes a step, or time passes.  Nothing here says in which order moves are made; any list
of moves, each of them possible at its time, is a history of the farm.
-/

namespace TaskFarm

/-- Something that happens at a farm. -/
inductive Move where
  | accept (source : String)
  | abandon (r : RunId)
  | hire
  | dismiss (w : WorkerId)
  | close
  | walk (r : RunId)
  | relay (s : SessionId)
  | work (w : WorkerId)
  /-- A dismissed worker gives up what it waits for. -/
  | quit (w : WorkerId)
  /-- Time passes up to a moment. -/
  | wait (moment : Nat)
  deriving DecidableEq, Repr

namespace Farm

/-- The farm after a move, if the move is possible. -/
def move? (f : Farm) : Move → Option Farm
  | .accept source => some (f.accept source).2
  | .abandon r => some (f.abandon r)
  | .hire => some f.hire
  | .dismiss w => some (f.dismiss w)
  | .close => some { f with exchange := f.exchange.close }
  | .walk r => f.walkStep? r
  | .relay s => f.relayStep? s
  | .work w => f.workStep? w
  | .quit w => f.quitStep? w
  | .wait moment => if f.now < moment then some { f with now := moment } else none

/-- The farm after a list of moves, if each of them is possible at its time. -/
def play? (f : Farm) : List Move → Option Farm
  | [] => some f
  | m :: rest => (f.move? m).bind fun f => f.play? rest

/-- The farm after the first of some moves that is possible. -/
def firstMove? (f : Farm) (moves : List Move) : Option Farm :=
  moves.findSome? f.move?

end Farm

end TaskFarm
