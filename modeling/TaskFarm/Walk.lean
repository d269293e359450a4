import TaskFarm.Expr.Arena
import TaskFarm.Task.Basic
import TaskFarm.Task.CostTable

/-!
# Walking a tree

A walk visits the operators of a tree in post-order, left operand before right, and turns each one
into a task.  It hands out one task at a time: while a task is offered or awaited, the walk stands
still until the outside answers.  The walk keeps a stack of frames of its own, and the values found
so far in a table beside the tree.

The functions here are the moves of a walk, one for each thing that can happen to it; who makes
them, and in which order, is left to the outside.
-/

namespace TaskFarm

open TaskFarm.Expr (Arena Node Operator)

/-- Why a walk ends without a value. -/
inductive EvalError where
  /-- The result of a task reported a failure. -/
  | task (id : TaskId) (cause : TaskError)
  /-- Nobody takes tasks any more. -/
  | taskChannelClosed
  /-- No result of the awaited task can come any more. -/
  | resultChannelClosed (id : TaskId)
  /-- Too many operators lie above an operator. -/
  | depthExceeded (depth maxDepth : Nat)
  deriving DecidableEq, Repr

def EvalError.message (name : TaskId → String) : EvalError → String
  | .task id cause => "task " ++ name id ++ " failed: " ++ cause.message
  | .taskChannelClosed => "task channel closed"
  | .resultChannelClosed id => "result channel closed while waiting for task " ++ name id
  | .depthExceeded depth maxDepth =>
    "evaluation depth " ++ toString depth ++ " exceeds maximum of " ++ toString maxDepth

/-- A node that is still to be visited. -/
structure Frame where
  node : Nat
  /-- The number of operators above the node. -/
  depth : Nat
  /-- The operands of the node have been put on the stack. -/
  visited : Bool
  deriving DecidableEq, Repr

/-- The frame of a node that is visited for the first time. -/
def Frame.enter (node depth : Nat) : Frame :=
  ⟨node, depth, false⟩

structure Plan where
  arena : Arena
  costs : CostTable
  /-- How many operators may lie above an operator. -/
  maxDepth : Nat

inductive Stage where
  | walking
  /-- The task of a node is offered to whoever takes tasks. -/
  | offering (node : Nat) (task : Task)
  /-- The task of a node was taken, and its result is awaited. -/
  | awaiting (node : Nat) (id : TaskId)
  | finished (outcome : Except EvalError Float)
  /-- An operand had no value when it was needed. -/
  | stuck

structure Walk where
  stage : Stage
  /-- The nodes still to be visited, the next one first. -/
  frames : List Frame
  /-- The value of each operator that was found so far. -/
  resolved : Array (Option Float)
  /-- The tasks that were taken, in order. -/
  emitted : Array TaskId

namespace Plan

/-- A walk that has found nothing yet. -/
def start (p : Plan) : Walk :=
  { stage := .walking
    frames := [Frame.enter p.arena.root 0]
    resolved := Array.replicate p.arena.size none
    emitted := #[] }

/-- A walk from the root again that keeps what an earlier one found. -/
def restart (p : Plan) (w : Walk) : Walk :=
  { w with stage := .walking, frames := [Frame.enter p.arena.root 0] }

end Plan

namespace Walk

def valueAt (w : Walk) (node : Nat) : Option Float :=
  (w.resolved[node]?).join

def isOver (w : Walk) : Bool :=
  match w.stage with
  | .finished _ | .stuck => true
  | _ => false

end Walk

namespace Plan

/-- The value of an operand: a number is its own value. -/
def operand (p : Plan) (w : Walk) (node : Nat) : Option Float :=
  match p.arena.node? node with
  | some (.number value) => some value
  | some (.binary _ _ _) => w.valueAt node
  | none => none

/-- Visit the topmost frame, or end the walk if there is none.  The id is for the task that may
be made. -/
def visit (p : Plan) (fresh : TaskId) (w : Walk) : Walk :=
  match w.frames with
  | [] =>
    match p.operand w p.arena.root with
    | some value => { w with stage := .finished (.ok value) }
    | none => { w with stage := .stuck }
  | frame :: below =>
    match p.arena.node? frame.node with
    | none => { w with stage := .stuck }
    | some (.number _) => { w with frames := below }
    | some (.binary op left right) =>
      if (w.valueAt frame.node).isSome then
        { w with frames := below }
      else if !frame.visited then
        if p.maxDepth ≤ frame.depth then
          { w with
            frames := below
            stage := .finished (.error (.depthExceeded frame.depth p.maxDepth)) }
        else
          { w with
            frames :=
              Frame.enter left (frame.depth + 1) :: Frame.enter right (frame.depth + 1) ::
                { frame with visited := true } :: below }
      else
        match p.operand w left, p.operand w right with
        | some x, some y =>
          { w with
            frames := below
            stage := .offering frame.node (Task.make fresh op x y (p.costs.of op)) }
        | _, _ => { w with frames := below, stage := .stuck }

/-- Visit frames, at most `fuel` of them, until the walk stands still. -/
def advance (p : Plan) (fresh : TaskId) : Nat → Walk → Walk
  | 0, w => w
  | fuel + 1, w =>
    match w.stage with
    | .walking => advance p fresh fuel (p.visit fresh w)
    | _ => w

/-- Visit frames until the walk stands still.  Each node is visited at most twice, and once more
the walk looks at the empty stack. -/
def proceed (p : Plan) (fresh : TaskId) (w : Walk) : Walk :=
  p.advance fresh (2 * p.arena.size + 1) w

end Plan

namespace Walk

def accepted (w : Walk) : Walk :=
  match w.stage with
  | .offering node task =>
    { w with stage := .awaiting node task.id, emitted := w.emitted.push task.id }
  | _ => w

/-- The offered task was refused, since nobody takes tasks any more. -/
def refused (w : Walk) : Walk :=
  match w.stage with
  | .offering _ _ => { w with stage := .finished (.error .taskChannelClosed) }
  | _ => w

/-- A result arrives.  Only that of the awaited task counts; any other one is dropped. -/
def received (w : Walk) (r : TaskResult) : Walk :=
  match w.stage with
  | .awaiting node id =>
    if r.id = id then
      match r.outcome with
      | .ok value =>
        { w with stage := .walking, resolved := w.resolved.setIfInBounds node (some value) }
      | .error cause => { w with stage := .finished (.error (.task id cause)) }
    else
      w
  | _ => w

/-- No result can arrive any more. -/
def hungUp (w : Walk) : Walk :=
  match w.stage with
  | .awaiting _ id => { w with stage := .finished (.error (.resultChannelClosed id)) }
  | _ => w

end Walk

end TaskFarm
