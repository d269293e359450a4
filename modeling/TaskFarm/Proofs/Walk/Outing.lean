import TaskFarm.Proofs.Walk.Visits

/-!
# Walks in arbitrary surroundings

A walk hands out tasks and reads results, while the surroundings may take a task or refuse it, send
any results at all, and hang up whenever they like.  An outing is a walk together with what it has
handed out and read so far.

The invariant `Outing.Sound` says that the operators handed out and those that the stack still leads
to are, one after the other, all operators in post-order.  Since the indices of operators increase
along that list, whatever an operator needs has been handed out and answered before its turn.
-/

namespace TaskFarm

open TaskFarm.Expr (Arena Node Operator OpTree)

/-- A task that was handed out for a node, and the results that were read since, oldest first. -/
structure Assignment where
  node : Nat
  task : Task
  read : List TaskResult

namespace Assignment

/-- The outcome reported by the first result with the id of the task. -/
def reply? (x : Assignment) : Option (Except TaskError Float) :=
  (x.read.find? fun r => r.id == x.task.id).map TaskResult.outcome

/-- The value reported by that result, unless it reports a failure. -/
def value? (x : Assignment) : Option Float :=
  match x.reply? with
  | some (.ok value) => some value
  | _ => none

/-- One more result counts if none before it had the id of the task. -/
theorem reply?_read {x : Assignment} (h : x.reply? = none) (r : TaskResult) :
    reply? { x with read := x.read ++ [r] } =
      if r.id = x.task.id then some r.outcome else none := by
  have hnone : x.read.find? (fun r => r.id == x.task.id) = none := by
    simpa [reply?] using h
  by_cases hid : r.id = x.task.id
  · simp [reply?, List.find?_append, hnone, hid]
  · simp [reply?, List.find?_append, hnone, hid]

/-- A result is read for the latest task. -/
def readLatest (r : TaskResult) : List Assignment → List Assignment
  | [] => []
  | x :: earlier => { x with read := x.read ++ [r] } :: earlier

/-- The nodes of some tasks, of which the latest comes first, in the order of handing out. -/
def nodes (xs : List Assignment) : List Nat :=
  xs.reverse.map node

/-- The value found for a node by its assignment. -/
def valueIn (xs : List Assignment) (node : Nat) : Option Float :=
  (xs.find? fun x => x.node == node).bind value?

/-- Each of the tasks has been answered with a value. -/
def AllAnswered (xs : List Assignment) : Prop :=
  ∀ x ∈ xs, ∃ value, x.reply? = some (.ok value)

theorem valueIn_cons (x : Assignment) (xs : List Assignment) (node : Nat) :
    valueIn (x :: xs) node = if x.node = node then x.value? else valueIn xs node := by
  by_cases hnode : x.node = node
  · simp [valueIn, hnode]
  · simp [valueIn, hnode]

@[simp] theorem nodes_cons (x : Assignment) (xs : List Assignment) :
    nodes (x :: xs) = nodes xs ++ [x.node] := by
  simp [nodes]

theorem mem_nodes {xs : List Assignment} {i : Nat} :
    i ∈ nodes xs ↔ ∃ x ∈ xs, x.node = i := by
  simp [nodes]

theorem valueIn_eq_none {xs : List Assignment} {node : Nat}
    (h : node ∉ nodes xs) : valueIn xs node = none := by
  have hfind : xs.find? (fun x => x.node == node) = none := by
    rw [List.find?_eq_none]
    intro x hx hnode
    exact h (mem_nodes.mpr ⟨x, hx, by simpa using hnode⟩)
  simp [valueIn, hfind]

theorem exists_valueIn {xs : List Assignment} {node : Nat} (hall : AllAnswered xs)
    (h : node ∈ nodes xs) : ∃ value, valueIn xs node = some value := by
  obtain ⟨x, hx, hnode⟩ := mem_nodes.mp h
  cases hfind : xs.find? (fun y => y.node == node) with
  | none =>
      have := List.find?_eq_none.mp hfind x hx
      simp [hnode] at this
  | some y =>
      obtain ⟨value, hvalue⟩ := hall y (List.mem_of_find?_eq_some hfind)
      exact ⟨value, by simp [valueIn, hfind, Assignment.value?, hvalue]⟩

end Assignment

open Assignment (nodes valueIn AllAnswered)

/-- Something that happens to a walk. -/
inductive Signal where
  /-- It gets a turn; a task that it makes then is named by the id. -/
  | turn (fresh : TaskId)
  /-- The offered task is taken. -/
  | taken
  /-- The offered task is refused. -/
  | refused
  | result (r : TaskResult)
  /-- No result can come any more. -/
  | hangUp

/-- A walk and what has gone back and forth. -/
structure Outing where
  walk : Walk
  /-- The tasks handed out, the latest first. -/
  assignments : List Assignment

namespace Outing

/-- An outing goes on with a signal, which has an effect only at the stage that it is meant for. -/
def after (p : Plan) (o : Outing) (s : Signal) : Outing :=
  match s, o.walk.stage with
  | .turn fresh, .walking => { o with walk := p.proceed fresh o.walk }
  | .taken, .offering node task => ⟨o.walk.accepted, ⟨node, task, []⟩ :: o.assignments⟩
  | .refused, .offering _ _ => { o with walk := o.walk.refused }
  | .result r, .awaiting _ _ => ⟨o.walk.received r, Assignment.readLatest r o.assignments⟩
  | .hangUp, .awaiting _ _ => { o with walk := o.walk.hungUp }
  | _, _ => o

end Outing

namespace Plan

/-- The outing of a walk from its start through some signals. -/
def outing (p : Plan) (signals : List Signal) : Outing :=
  signals.foldl (Outing.after p) ⟨p.start, []⟩

/-- The value of an operand: a number is its own, an operator's was reported for its task. -/
def operandIn (p : Plan) (xs : List Assignment) (node : Nat) : Option Float :=
  match p.arena.node? node with
  | some (.number value) => some value
  | some (.binary _ _ _) => valueIn xs node
  | none => none

/-- A task asks for its node to be computed from what was found earlier. -/
def Asks (p : Plan) (earlier : List Assignment) (x : Assignment) : Prop :=
  ∃ op left right,
    p.arena.node? x.node = some (.binary op left right) ∧
      p.operandIn earlier left = some x.task.arg1 ∧
      p.operandIn earlier right = some x.task.arg2 ∧
      x.task.operation = op.text ∧
      x.task.duration = p.costs.of op ∧
      x.task.error =
        if op = .div ∧ (x.task.arg2 == 0.0) = true then some .divisionByZero else none

/-- Each task, the latest first, was handed out when all earlier ones had been answered with
values, and asks for what these lead to. -/
def InOrder (p : Plan) : List Assignment → Prop
  | [] => True
  | x :: earlier => AllAnswered earlier ∧ p.Asks earlier x ∧ p.InOrder earlier

end Plan

/-! ## The invariant -/

namespace Outing

variable {p : Plan} {t : OpTree Nat} {o : Outing}

/-- What was handed out, what comes next, and what the stack leads to are all operators. -/
def Leads (p : Plan) (t : OpTree Nat) (o : Outing) (next : List Nat) : Prop :=
  ∃ visits, o.walk.Visits p.arena visits ∧
    nodes o.assignments ++ next ++ visits.flatMap Visit.operators = t.operators

/-- What holds of an outing at the stage of its walk. -/
def Stands (p : Plan) (t : OpTree Nat) (o : Outing) : Prop :=
  match o.walk.stage with
  | .walking => AllAnswered o.assignments ∧ o.Leads p t []
  | .offering node task =>
    AllAnswered o.assignments ∧ p.Asks o.assignments ⟨node, task, []⟩ ∧ o.Leads p t [node]
  | .awaiting node id =>
    ∃ x earlier, o.assignments = x :: earlier ∧ x.node = node ∧ x.task.id = id ∧
      x.reply? = none ∧ AllAnswered earlier ∧ o.Leads p t []
  | .finished (.ok value) =>
    AllAnswered o.assignments ∧ nodes o.assignments = t.operators ∧
      p.operandIn o.assignments p.arena.root = some value
  | .finished (.error e) =>
    nodes o.assignments <+: t.operators ∧
      ∀ x ∈ o.assignments, ∀ cause, x.reply? = some (.error cause) → e = .task x.task.id cause
  | .stuck => False

/-- The invariant of outings. -/
structure Sound (p : Plan) (t : OpTree Nat) (o : Outing) : Prop where
  size_eq : o.walk.resolved.size = p.arena.size
  valueAt_eq : ∀ node, o.walk.valueAt node = valueIn o.assignments node
  inOrder : p.InOrder o.assignments
  stands : o.Stands p t

theorem Leads.initial {next : List Nat} (h : o.Leads p t next) :
    nodes o.assignments <+: t.operators := by
  obtain ⟨visits, -, hall⟩ := h
  rw [← hall, List.append_assoc]
  exact List.prefix_append _ _

/-- An operator that the stack still leads to has no value yet. -/
theorem Sound.valueAt_eq_none (h : o.Sound p t) (ht : p.arena.Shows t) {node : Nat}
    {rest : List Nat} (hall : nodes o.assignments ++ rest = t.operators) (hmem : node ∈ rest) :
    o.walk.valueAt node = none := by
  have hnodup : (nodes o.assignments ++ rest).Nodup := hall ▸ ht.operators_nodup
  rw [h.valueAt_eq]
  apply Assignment.valueIn_eq_none
  intro hsent
  exact (List.nodup_append.mp hnodup).2.2 node hsent node hmem rfl

/-- The operands of the operator whose turn it is have values: their indices are smaller. -/
theorem Sound.look_operand (h : o.Sound p t) (ht : p.arena.Shows t)
    (hall : AllAnswered o.assignments) {node : Nat} {rest : List Nat}
    (hnext : nodes o.assignments ++ node :: rest = t.operators) {part : OpTree Nat}
    (hpart : part.LiesIn p.arena.entries) (hlt : part.label < node) :
    ∃ value, part.look o.walk.valueAt = some value := by
  cases part with
  | leaf i v => exact ⟨v, rfl⟩
  | branch i op l r =>
      have hi : i ∈ nodes o.assignments := ht.mem_before hnext (ht.mem_operators hpart.1) hlt
      rw [OpTree.look, h.valueAt_eq]
      exact Assignment.exists_valueIn hall hi

/-- What the table of the walk says of a part is what the tasks handed out say of it. -/
theorem Sound.operandIn_eq (h : o.Sound p t) {part : OpTree Nat}
    (hpart : part.LiesIn p.arena.entries) :
    p.operandIn o.assignments part.label = part.look o.walk.valueAt := by
  cases part with
  | leaf i v =>
      have hnode : p.arena.node? i = some (.number v) := hpart
      simp [Plan.operandIn, OpTree.label, OpTree.look, hnode]
  | branch i op l r =>
      have hnode : p.arena.node? i = some (.binary op l.label r.label) := hpart.1
      simp [Plan.operandIn, OpTree.label, OpTree.look, hnode, h.valueAt_eq]

end Outing

end TaskFarm
