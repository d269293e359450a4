import TaskFarm.Proofs.Expr.Evaluation
import TaskFarm.Proofs.Walk.Refinement
import TaskFarm.Task.Compute

/-!
# What a walk comes to

At every stage there is one outcome to which a walk leads if each of its tasks is answered with what
it comes to: that of doing the visits on its stack by recursion, starting with its table.  A step of
the walk does not change this outcome, and at the start it is the value of the tree.
-/

namespace TaskFarm

open TaskFarm.Expr (Arena Operator OpTree Fault)
open Assignment (nodes AllAnswered)

/-! ## Tasks -/

namespace Task

theorem id_result (task : Task) : task.result.id = task.id := by
  unfold result
  cases task.compute <;> rfl

theorem outcome_result (task : Task) : task.result.outcome = task.compute := by
  unfold result
  cases task.compute <;> rfl

theorem operator_make (id : TaskId) (op : Operator) (x y : Float) (duration : Nat) :
    (make id op x y duration).operator = .ok op := by
  have htext : Operator.ofText? op.text = some op := by
    simp [Operator.ofText?, Operator.text]
  simp [operator, make, htext]

/-- A task for an operator comes to what the operator does, if that has a value. -/
theorem compute_make (id : TaskId) (op : Operator) (x y : Float) (duration : Nat) :
    (make id op x y duration).compute =
      (op.evaluate x y).mapError fun _ => TaskError.divisionByZero := by
  unfold compute
  rw [operator_make]
  unfold Operator.evaluate
  by_cases hzero : divides op y
  · simp only [make, hzero, if_true]
    unfold divides at hzero
    rw [if_pos hzero]
    rfl
  · simp only [make, hzero, Bool.false_eq_true, if_false]
    unfold divides at hzero
    rw [if_neg hzero]
    rfl

end Task

/-- The fault of a tree that an error of its walk reports. -/
def EvalError.fault? : EvalError → Option Fault
  | .task _ .divisionByZero => some .divisionByZero
  | .depthExceeded depth maxDepth => some (.depthExceeded depth maxDepth)
  | _ => none

namespace Visit

/-- Do a visit by recursion. -/
def complete (maxDepth : Nat) (table : Nat → Float) : Visit → Except Fault (Nat → Float)
  | enter t depth => t.fill maxDepth depth table
  | leave node op l r _ => OpTree.enter node op l r table

/-- The value of a tree after some visits. -/
def answer (maxDepth : Nat) (t : OpTree Nat) (visits : List Visit) (table : Nat → Float) :
    Except Fault Float :=
  (visits.foldlM (complete maxDepth) table).map t.read

variable {maxDepth : Nat} {t : OpTree Nat} {rest : List Visit} {table : Nat → Float}

theorem answer_leaf (i depth : Nat) (value : Float) :
    answer maxDepth t (enter (.leaf i value) depth :: rest) table =
      answer maxDepth t rest table :=
  rfl

theorem answer_tooDeep {depth : Nat} (hdepth : maxDepth ≤ depth) (node : Nat) (op : Operator)
    (l r : OpTree Nat) :
    answer maxDepth t (enter (.branch node op l r) depth :: rest) table =
      .error (.depthExceeded depth maxDepth) := by
  simp only [answer, List.foldlM_cons, complete, OpTree.fill, if_pos hdepth]
  rfl

/-- Entering an operator is doing the visits that take its place. -/
theorem answer_enter {depth : Nat} (hdepth : depth < maxDepth) (node : Nat) (op : Operator)
    (l r : OpTree Nat) :
    answer maxDepth t (enter (.branch node op l r) depth :: rest) table =
      answer maxDepth t (unfold node op l r depth ++ rest) table := by
  simp only [answer, unfold, List.cons_append, List.nil_append, List.foldlM_cons, complete,
    OpTree.fill, if_neg (Nat.not_le.mpr hdepth), bind_assoc]

theorem answer_leave (node depth : Nat) (op : Operator) (l r : OpTree Nat) :
    answer maxDepth t (leave node op l r depth :: rest) table =
      (op.evaluate (l.read table) (r.read table)).bind fun value =>
        answer maxDepth t rest (Function.update table node value) := by
  simp only [answer, List.foldlM_cons, complete, OpTree.enter]
  cases op.evaluate (l.read table) (r.read table) <;> rfl

end Visit

namespace Walk

/-- The values found so far. -/
def table (w : Walk) (node : Nat) : Float :=
  (w.valueAt node).getD 0.0

/-- The walk leads to an outcome if the operator of a node is done next. -/
def Awaits (p : Plan) (t : OpTree Nat) (expected : Except Fault Float) (w : Walk) (node : Nat)
    (task : Task) : Prop :=
  ∃ op x y, task = Task.make task.id op x y task.duration ∧
    ∀ visits, w.Visits p.arena visits →
      ((op.evaluate x y).bind fun value =>
        Visit.answer p.maxDepth t visits (Function.update w.table node value)) = expected

/-- The walk leads to an outcome, or has come to it. -/
def Promises (p : Plan) (t : OpTree Nat) (genuine : Task → Prop) (expected : Except Fault Float)
    (w : Walk) : Prop :=
  match w.stage with
  | .walking =>
    ∀ visits, w.Visits p.arena visits → Visit.answer p.maxDepth t visits w.table = expected
  | .offering node task => w.Awaits p t expected node task
  | .awaiting node id => ∃ task, genuine task ∧ task.id = id ∧ w.Awaits p t expected node task
  | .finished (.ok value) => expected = .ok value
  | .finished (.error e) => ∃ fault, e.fault? = some fault ∧ expected = .error fault
  | .stuck => False

variable {p : Plan} {t : OpTree Nat} {genuine genuine' : Task → Prop}
  {expected : Except Fault Float} {w : Walk}

theorem Promises.mono (h : w.Promises p t genuine expected)
    (hgenuine : ∀ task, genuine task → genuine' task) : w.Promises p t genuine' expected := by
  unfold Promises at h ⊢
  split
  · next hstage => simpa [hstage] using h
  · next hstage => simpa [hstage] using h
  · next hstage =>
    simp only [hstage] at h
    obtain ⟨task, htask, hid, hawaits⟩ := h
    exact ⟨task, hgenuine task htask, hid, hawaits⟩
  · next hstage => simpa [hstage] using h
  · next hstage => simpa [hstage] using h
  · next hstage => simp [hstage] at h

theorem read_table {part : OpTree Nat} {value : Float} (h : part.look w.valueAt = some value) :
    part.read w.table = value := by
  cases part with
  | leaf i v => exact Option.some.inj h
  | branch i op l r =>
      have hvalue : w.valueAt i = some value := h
      simp [OpTree.read, table, hvalue]

/-- At the start, the walk leads to the value of its tree. -/
theorem promises_start (ht : p.arena.Shows t) (genuine : Task → Prop) :
    p.start.Promises p t genuine (t.evaluate p.maxDepth 0) := by
  have hstart : p.start.Visits p.arena [.enter t 0] := by
    refine ⟨by simp [Plan.start, Visit.frame, ht.root_eq], ?_⟩
    simpa [Visit.tree] using ht.liesIn
  intro visits hv
  rw [hv.unique hstart, ← OpTree.map_read_fill ht.operators_nodup 0 p.start.table]
  simp [Visit.answer, Visit.complete]

end Walk

namespace Outing

variable {p : Plan} {t : OpTree Nat} {genuine : Task → Prop} {expected : Except Fault Float}
  {w : Walk} {xs : List Assignment}

/-- A visit does not change what the walk leads to. -/
theorem Sound.promises_visit (h : Sound p t ⟨w, xs⟩) (hstage : w.stage = .walking)
    (ht : p.arena.Shows t) (hp : w.Promises p t genuine expected) (fresh : TaskId) :
    (p.visit fresh w).Promises p t genuine expected := by
  simp only [Walk.Promises, hstage] at hp
  obtain ⟨visits, -, hv, -, hvisited⟩ := h.visited hstage ht fresh
  have hanswer := hp visits hv
  generalize p.visit fresh w = w' at hvisited
  cases hvisited with
  | done hvalue =>
      rw [← hanswer]
      exact congrArg Except.ok (Walk.read_table hvalue)
  | leaf =>
      simp only [Walk.Promises, hstage]
      intro visits' hv'
      rw [hv'.unique (hv.tail.congr rfl), ← hanswer, Visit.answer_leaf]
      rfl
  | tooDeep hdepth =>
      rw [Visit.answer_tooDeep hdepth] at hanswer
      exact ⟨_, rfl, hanswer.symm⟩
  | enter hdepth =>
      simp only [Walk.Promises, hstage]
      intro visits' hv'
      rw [hv'.unique ((Plan.visits_unfold hv).congr rfl), ← hanswer,
        Visit.answer_enter hdepth]
      rfl
  | @leave node depth op l r rest x y hx hy =>
      refine ⟨op, x, y, rfl, ?_⟩
      intro visits' hv'
      rw [hv'.unique (hv.tail.congr rfl), ← hanswer, Visit.answer_leave, Walk.read_table hx,
        Walk.read_table hy]
      rfl

theorem Sound.promises_turn (h : Sound p t ⟨w, xs⟩) (ht : p.arena.Shows t)
    (hp : w.Promises p t genuine expected) (fresh : TaskId) :
    (p.proceed fresh w).Promises p t genuine expected :=
  (Plan.proceed_induction
    (P := fun w => Sound p t ⟨w, xs⟩ ∧ w.Promises p t genuine expected)
    (fun _ hstage hw =>
      ⟨hw.1.visit hstage ht fresh, hw.1.promises_visit hstage ht hw.2 fresh⟩) ⟨h, hp⟩).2

/-- A task made in a turn is named by the id that was given for it. -/
theorem Sound.offered_turn (h : Sound p t ⟨w, xs⟩) (ht : p.arena.Shows t)
    (hstage : w.stage = .walking) (fresh : TaskId) {node : Nat} {task : Task}
    (hoffered : (p.proceed fresh w).stage = .offering node task) : task.id = fresh := by
  have hall : Sound p t ⟨p.proceed fresh w, xs⟩ ∧ ∀ node task,
      (p.proceed fresh w).stage = .offering node task → task.id = fresh := by
    refine Plan.proceed_induction (P := fun w => Sound p t ⟨w, xs⟩ ∧ ∀ node task,
      w.stage = .offering node task → task.id = fresh) ?_ ⟨h, by simp [hstage]⟩
    rintro w' hstage' ⟨hw, -⟩
    refine ⟨hw.visit hstage' ht fresh, ?_⟩
    obtain ⟨visits, -, -, -, hvisited⟩ := hw.visited hstage' ht fresh
    generalize p.visit fresh w' = w'' at hvisited
    cases hvisited with
    | done hvalue => exact nofun
    | leaf => simp [hstage']
    | tooDeep hdepth => exact nofun
    | enter hdepth => simp [hstage']
    | leave hx hy =>
        intro node task hoffering
        cases hoffering
        rfl
  exact hall.2 node task hoffered

theorem promises_taken {node : Nat} {task : Task} (hstage : w.stage = .offering node task)
    (hp : w.Promises p t genuine expected) (hgenuine : genuine task) :
    w.accepted.Promises p t genuine expected := by
  simp only [Walk.Promises, hstage] at hp
  obtain ⟨op, x, y, hmake, hanswer⟩ := hp
  rw [Walk.accepted_eq hstage]
  exact ⟨task, hgenuine, rfl, op, x, y, hmake, fun visits hv => hanswer visits (hv.congr rfl)⟩

/-- The table after a value has been found for a node. -/
theorem table_resolve {w w' : Walk} {node : Nat} {value : Float}
    (hresolved : w'.resolved = w.resolved.setIfInBounds node (some value))
    (hlt : node < w.resolved.size) : w'.table = Function.update w.table node value := by
  funext i
  rw [Walk.table, Walk.valueAt_resolve hresolved hlt]
  by_cases hi : node = i
  · simp [hi]
  · rw [if_neg hi, Function.update_of_ne (Ne.symm hi)]
    rfl

theorem Sound.awaited_lt (h : Sound p t ⟨w, xs⟩) (ht : p.arena.Shows t) {node : Nat} {id : TaskId}
    (hstage : w.stage = .awaiting node id) : node < w.resolved.size := by
  have hinitial := h.initial
  have hstands := h.stands
  simp only [Stands, hstage] at hstands
  obtain ⟨x, earlier, rfl, rfl, -⟩ := hstands
  have hmem : x.node ∈ nodes (x :: earlier) := by simp
  exact h.size_eq ▸ ht.lt_size (hinitial.subset hmem)

/-- A result that is that of a genuine task does not change what the walk leads to. -/
theorem Sound.promises_result (h : Sound p t ⟨w, xs⟩) (ht : p.arena.Shows t) {node : Nat}
    {id : TaskId} (hstage : w.stage = .awaiting node id)
    (hp : w.Promises p t genuine expected)
    (honce : ∀ a b, genuine a → genuine b → a.id = b.id → a = b) {answered : Task}
    (hgenuine : genuine answered) :
    (w.received answered.result).Promises p t genuine expected := by
  by_cases hid : answered.id = id
  · simp only [Walk.Promises, hstage] at hp
    obtain ⟨task, htask, htaskId, op, x, y, hmake, hanswer⟩ := hp
    obtain rfl : answered = task := honce _ _ hgenuine htask (hid.trans htaskId.symm)
    have hresult : answered.result.id = id := answered.id_result.trans hid
    have hcompute : answered.result.outcome =
        (op.evaluate x y).mapError fun _ => TaskError.divisionByZero := by
      rw [answered.outcome_result, hmake, Task.compute_make]
    cases hvalue : op.evaluate x y with
    | error fault =>
        obtain rfl := Operator.eq_of_evaluate_error hvalue
        rw [hvalue] at hcompute
        have hstands := h.stands
        simp only [Stands, hstage] at hstands
        obtain ⟨_, _, -, -, -, -, -, visits, hv, -⟩ := hstands
        have hexpected := hanswer visits hv
        rw [hvalue] at hexpected
        rw [Walk.received_failure hstage hresult hcompute]
        exact ⟨_, rfl, hexpected.symm⟩
    | ok value =>
        rw [hvalue] at hcompute
        rw [Walk.received_value hstage hresult hcompute]
        intro visits hv
        rw [table_resolve rfl (h.awaited_lt ht hstage)]
        have hexpected := hanswer visits (hv.congr rfl)
        rw [hvalue] at hexpected
        exact hexpected
  · rw [Walk.received_stale hstage (answered.id_result.trans_ne hid)]
    exact hp

end Outing

/-! ## Walks that others serve -/

/-- A walk that leads to the value of its tree, and whose task, if it offers one, was issued. -/
structure Walk.Serves (p : Plan) (t : OpTree Nat) (issued : List Task) (w : Walk) : Prop where
  outing : ∃ xs, Outing.Sound p t ⟨w, xs⟩
  promises : w.Promises p t (· ∈ issued) (t.evaluate p.maxDepth 0)
  offered : ∀ node task, w.stage = .offering node task → task ∈ issued

namespace Walk.Serves

variable {p : Plan} {t : OpTree Nat} {issued issued' : List Task} {w : Walk}

theorem mono (h : w.Serves p t issued) (hissued : issued ⊆ issued') : w.Serves p t issued' where
  outing := h.outing
  promises := h.promises.mono hissued
  offered node task hstage := hissued (h.offered node task hstage)

theorem start (ht : p.arena.Shows t) (issued : List Task) : p.start.Serves p t issued where
  outing := ⟨[], Outing.sound_start ht⟩
  promises := promises_start ht _
  offered := nofun

/-- A turn issues at most one task, named by the given id. -/
theorem turn (h : w.Serves p t issued) (ht : p.arena.Shows t) (hstage : w.stage = .walking)
    (fresh : TaskId) :
    (p.proceed fresh w).Serves p t issued ∨
      ∃ task, task.id = fresh ∧ (p.proceed fresh w).Serves p t (issued ++ [task]) := by
  obtain ⟨xs, hsound⟩ := h.outing
  have hturn := hsound.turn ht fresh
  have hpromises := hsound.promises_turn ht h.promises fresh
  by_cases hoffer : ∃ node task, (p.proceed fresh w).stage = .offering node task
  · obtain ⟨node, task, hoffer⟩ := hoffer
    refine .inr ⟨task, hsound.offered_turn ht hstage fresh hoffer, ⟨xs, hturn⟩, ?_, ?_⟩
    · exact hpromises.mono fun _ => List.mem_append_left _
    · intro node' task' hoffer'
      cases hoffer.symm.trans hoffer'
      exact List.mem_append_right _ (List.mem_singleton_self _)
  · exact .inl ⟨⟨xs, hturn⟩, hpromises, fun node task hstage => (hoffer ⟨node, task, hstage⟩).elim⟩

theorem taken (h : w.Serves p t issued) (ht : p.arena.Shows t) {node : Nat} {task : Task}
    (hstage : w.stage = .offering node task) : w.accepted.Serves p t issued := by
  obtain ⟨xs, hsound⟩ := h.outing
  have hwalk : w.accepted.stage = .awaiting node task.id := by simp [Walk.accepted, hstage]
  exact ⟨⟨_, hsound.taken ht hstage⟩,
    Outing.promises_taken hstage h.promises (h.offered node task hstage), by simp [hwalk]⟩

/-- Only the result of an issued task may come, and no two issued tasks share an id. -/
theorem result (h : w.Serves p t issued) (ht : p.arena.Shows t) {node : Nat} {id : TaskId}
    (hstage : w.stage = .awaiting node id) (honce : (issued.map Task.id).Nodup) {r : TaskResult}
    (hr : ∃ task, task ∈ issued ∧ r = task.result) : (w.received r).Serves p t issued := by
  obtain ⟨xs, hsound⟩ := h.outing
  obtain ⟨task, htask, rfl⟩ := hr
  obtain ⟨x, earlier, rfl, hread⟩ := hsound.result ht hstage task.result
  refine ⟨⟨_, hread⟩, ?_, ?_⟩
  · exact hsound.promises_result ht hstage h.promises
      (fun a b ha hb hid => List.inj_on_of_nodup_map honce ha hb hid) htask
  · intro node' task' hoffer
    unfold Walk.received at hoffer
    simp only [hstage] at hoffer
    split at hoffer
    · split at hoffer
      · cases hoffer
      · cases hoffer
    · cases hstage.symm.trans hoffer

end Walk.Serves

end TaskFarm
