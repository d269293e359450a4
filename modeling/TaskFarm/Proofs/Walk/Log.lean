import Mathlib.Algebra.BigOperators.Group.List.Basic
import TaskFarm.Proofs.Walk.Tour

/-!
# The log of a walk

An outing gives a walk whole turns and ends with it.  Here a walk is followed from frame to frame,
and a new run may begin at any time, which keeps the values that earlier runs have found.  The log
says which frames the run has taken from its stack and which nodes have been given values.

Values are given in post-order, over all runs together.  The operators that the stack of a run leads
to are therefore some that have values from earlier runs, and then all that have none.  That is the
invariant: the first ones are skipped, and when the turn of another one comes, everything before it
has a value.
-/

namespace TaskFarm

open TaskFarm.Expr (Arena Operator OpTree)

/-- Something that a walk does or that happens to it. -/
inductive Step where
  /-- It visits the next frame; a task that it makes then is named by the id. -/
  | visit (fresh : TaskId)
  /-- The offered task is taken. -/
  | taken
  /-- The offered task is refused. -/
  | refused
  | result (r : TaskResult)
  /-- No result can come any more. -/
  | hangUp
  /-- A new run begins, whatever has become of the last one. -/
  | again

/-- A walk and what has been noted of it. -/
structure Logged where
  walk : Walk
  /-- The frames that the run has taken from its stack, the latest one first. -/
  popped : List Frame
  /-- The number of steps of the run.  To drop a stale result is none. -/
  moves : Nat
  /-- The nodes that were given values, in all runs, the latest one first. -/
  written : List Nat
  /-- Those of them that had values when the run began. -/
  inherited : List Nat

namespace Logged

def start (p : Plan) : Logged :=
  ⟨p.start, [], 0, [], []⟩

/-- What is noted of a visit, which leads to another walk. -/
def visited (l : Logged) (w : Walk) : Logged :=
  { l with walk := w, popped := l.walk.frames.take 1 ++ l.popped, moves := l.moves + 1 }

/-- What is noted of any other step. -/
def moved (l : Logged) (w : Walk) : Logged :=
  { l with walk := w, moves := l.moves + 1 }

/-- What is noted when a result is read for a node. -/
def read (l : Logged) (node : Nat) (id : TaskId) (r : TaskResult) : Logged :=
  if r.id = id then
    { l.moved (l.walk.received r) with
      written := if r.outcome.isOk then node :: l.written else l.written }
  else
    { l with walk := l.walk.received r }

/-- The walk after a step, if the step is possible. -/
def step? (p : Plan) (l : Logged) (s : Step) : Option Logged :=
  match s, l.walk.stage with
  | .visit fresh, .walking => some (l.visited (p.visit fresh l.walk))
  | .taken, .offering _ _ => some (l.moved l.walk.accepted)
  | .refused, .offering _ _ => some (l.moved l.walk.refused)
  | .result r, .awaiting node id => some (l.read node id r)
  | .hangUp, .awaiting _ _ => some (l.moved l.walk.hungUp)
  | .again, _ => some ⟨p.restart l.walk, [], 0, l.written, l.written⟩
  | _, _ => none

/-- The walk after some steps, if each of them is possible at its time. -/
def steps? (p : Plan) (l : Logged) : List Step → Option Logged
  | [] => some l
  | s :: rest => (l.step? p s).bind fun l => l.steps? p rest

end Logged

/-- The operators that have been entered, but are not done. -/
def Visit.entered : Visit → List Nat
  | enter _ _ => []
  | leave node _ _ _ _ => [node]

/-- The operator whose value is on its way, if there is one, and the steps that a run takes beside
those for the stops ahead: the visit that finds the stack empty, and what is left to be done for
that operator. -/
def Stage.due? : Stage → Option (List Nat × Nat)
  | .walking => some ([], 1)
  | .offering node _ => some ([node], 3)
  | .awaiting node _ => some ([node], 2)
  | .finished _ | .stuck => none

namespace Visit

theorem flatMap_operators_unfold (node depth : Nat) (op : Operator) (l r : OpTree Nat)
    (rest : List Visit) :
    (unfold node op l r depth ++ rest).flatMap operators =
      (enter (.branch node op l r) depth :: rest).flatMap operators := by
  simp [unfold, operators, OpTree.operators]

/-- An operator that has been entered is still to be done. -/
theorem mem_flatMap_operators {visits : List Visit} {i : Nat} (h : i ∈ visits.flatMap entered) :
    i ∈ visits.flatMap operators := by
  obtain ⟨v, hv, hi⟩ := List.mem_flatMap.mp h
  cases v with
  | enter t depth => cases hi
  | leave node op l r depth => exact List.mem_flatMap.mpr ⟨_, hv, hi⟩

theorem length_tour_pos (v : Visit) : 0 < v.tour.length := by
  cases v with
  | enter t depth =>
      cases t with
      | leaf i value => simp [tour, OpTree.tour]
      | branch i op l r => simp [tour, OpTree.tour]
  | leave node op l r depth => simp [tour]

theorem length_le_length_tour (visits : List Visit) :
    visits.length ≤ (visits.flatMap tour).length := by
  have hpos : ∀ n ∈ visits.map fun v => v.tour.length, 1 ≤ n := by
    intro n hn
    obtain ⟨v, -, rfl⟩ := List.mem_map.mp hn
    exact v.length_tour_pos
  rw [List.length_flatMap]
  simpa using List.length_le_sum_of_one_le _ hpos

end Visit

namespace Logged

variable {p : Plan} {t : OpTree Nat} {l l' : Logged} {visits : List Visit} {credit : Nat}

/-! ## Operators ahead -/

/-- Some operators are those that a run has still to come to: some that it will skip, as they have
had values since it began, and then all that have no values. -/
def LeadsOn (t : OpTree Nat) (l : Logged) (operators : List Nat) : Prop :=
  ∃ skipped coming, operators = skipped ++ coming ∧ (∀ i ∈ skipped, i ∈ l.inherited) ∧
    l.written.reverse ++ coming = t.operators

theorem LeadsOn.nil (h : l.LeadsOn t []) : l.written.reverse = t.operators := by
  obtain ⟨skipped, coming, heq, -, hall⟩ := h
  obtain ⟨rfl, rfl⟩ := List.append_eq_nil_iff.mp heq.symm
  rwa [List.append_nil] at hall

/-- An operator that has a value is one of those that are skipped, and so are all before it. -/
theorem LeadsOn.skip {before rest : List Nat} {i : Nat} (h : l.LeadsOn t (before ++ i :: rest))
    (hnodup : t.operators.Nodup) (hi : i ∈ l.written) : i ∈ l.inherited ∧ l.LeadsOn t rest := by
  obtain ⟨skipped, coming, heq, hskipped, hall⟩ := h
  -- so the operator cannot stand behind the last one that is skipped
  have hcoming : i ∉ coming := by
    rw [← hall] at hnodup
    exact fun hmem => (List.nodup_append.mp hnodup).2.2 i (List.mem_reverse.mpr hi) i hmem rfl
  rcases List.append_eq_append_iff.mp heq with ⟨more, rfl, hrest⟩ | ⟨more, rfl, rfl⟩
  · cases more with
    | nil =>
        rw [List.nil_append] at hrest
        exact absurd (hrest ▸ List.mem_cons_self) hcoming
    | cons j more =>
        obtain ⟨rfl, rfl⟩ := List.cons_eq_cons.mp hrest
        refine ⟨hskipped i (by simp), more, coming, rfl, fun k hk => ?_, hall⟩
        exact hskipped k (by simp [hk])
  · exact absurd (by simp) hcoming

/-- If the first operator has no value, nothing is skipped any more. -/
theorem LeadsOn.first {i : Nat} {rest : List Nat} (h : l.LeadsOn t (i :: rest))
    (hinherited : ∀ j ∈ l.inherited, j ∈ l.written) (hi : i ∉ l.written) :
    l.written.reverse ++ i :: rest = t.operators := by
  obtain ⟨skipped, coming, heq, hskipped, hall⟩ := h
  cases skipped with
  | nil =>
      rw [List.nil_append] at heq
      rw [heq, hall]
  | cons j skipped =>
      obtain ⟨rfl, -⟩ := List.cons_eq_cons.mp heq
      exact absurd (hinherited i (hskipped i List.mem_cons_self)) hi

/-! ## The invariant -/

/-- What a run leads to: an operator that comes next, the visits on the stack, and besides these
visits two steps for each of their operators and some `credit`. -/
structure Heads (p : Plan) (t : OpTree Nat) (l : Logged) (next : List Nat) (visits : List Visit)
    (credit : Nat) : Prop where
  stack : l.walk.Visits p.arena visits
  leadsOn : l.LeadsOn t (next ++ visits.flatMap Visit.operators)
  unwritten : ∀ i ∈ next ++ visits.flatMap Visit.entered, i ∉ l.written
  popped_le : l.popped.length + (visits.flatMap Visit.tour).length ≤ (t.tour 0).length
  moves_le : l.moves + (visits.flatMap Visit.tour).length +
      2 * (visits.flatMap Visit.operators).length + credit ≤
    (t.tour 0).length + 2 * t.operators.length + 1

/-- Where a run stands. -/
inductive Stands (p : Plan) (t : OpTree Nat) (l : Logged) : Prop where
  | underWay {next : List Nat} {visits : List Visit} {credit : Nat}
    (hdue : l.walk.stage.due? = some (next, credit)) (h : l.Heads p t next visits credit)
  | finished {outcome : Except EvalError Float} (hstage : l.walk.stage = .finished outcome)
    (hpopped : l.popped.length ≤ (t.tour 0).length)
    (hmoves : l.moves ≤ (t.tour 0).length + 2 * t.operators.length + 1)

theorem Stands.heads {next : List Nat} (h : l.Stands p t)
    (hdue : l.walk.stage.due? = some (next, credit)) : ∃ visits, l.Heads p t next visits credit := by
  cases h with
  | underWay hdue' h =>
      cases hdue'.symm.trans hdue
      exact ⟨_, h⟩
  | finished hstage =>
      rw [hstage] at hdue
      cases hdue

/-- The invariant of logged walks: the table has values for the nodes that were written, which are
the first operators in post-order. -/
structure Sound (p : Plan) (t : OpTree Nat) (l : Logged) : Prop where
  size_eq : l.walk.resolved.size = p.arena.size
  valued_iff : ∀ i, (l.walk.valueAt i).isSome ↔ i ∈ l.written
  initial : l.written.reverse <+: t.operators
  inherited : ∀ i ∈ l.inherited, i ∈ l.written
  stands : l.Stands p t

theorem Sound.valueAt_eq_none (h : l.Sound p t) {i : Nat} (hi : i ∉ l.written) :
    l.walk.valueAt i = none := by
  rw [← Option.not_isSome_iff_eq_none, h.valued_iff]
  exact hi

theorem Sound.exists_value (h : l.Sound p t) {i : Nat} (hi : i ∈ l.written) :
    ∃ value, l.walk.valueAt i = some value :=
  Option.isSome_iff_exists.mp ((h.valued_iff i).mpr hi)

/-- A step that writes nothing keeps the invariant if it keeps that of the stage. -/
theorem Sound.congr (h : l.Sound p t) (hresolved : l'.walk.resolved = l.walk.resolved)
    (hwritten : l'.written = l.written) (hinherited : l'.inherited = l.inherited)
    (hstands : l'.Stands p t) : l'.Sound p t where
  size_eq := by
    rw [hresolved]
    exact h.size_eq
  valued_iff i := by
    rw [Walk.valueAt, hresolved, hwritten]
    exact h.valued_iff i
  initial := by
    rw [hwritten]
    exact h.initial
  inherited := by
    rw [hinherited, hwritten]
    exact h.inherited
  stands := hstands

/-! ## Values in the table -/

theorem Sound.exists_operand (h : l.Sound p t) (ht : p.arena.Shows t) {node : Nat}
    {rest : List Nat} {part : OpTree Nat} (hall : l.written.reverse ++ node :: rest = t.operators)
    (hpart : part.LiesIn p.arena.entries) (hlt : part.label < node) :
    ∃ value, part.look l.walk.valueAt = some value := by
  cases part with
  | leaf i v => exact ⟨v, rfl⟩
  | branch i op left right =>
      have hi := ht.mem_before hall (ht.mem_operators hpart.1) hlt
      exact h.exists_value (List.mem_reverse.mp hi)

/-- When the operands of an operator have been visited, they have values. -/
theorem Heads.exists_operands {node depth : Nat} {op : Operator} {left right : OpTree Nat}
    (hheads : l.Heads p t [] (.leave node op left right depth :: visits) credit)
    (h : l.Sound p t) (ht : p.arena.Shows t) :
    ∃ x y, left.look l.walk.valueAt = some x ∧ right.look l.walk.valueAt = some y := by
  obtain ⟨hnode, hl, hr⟩ := hheads.stack.liesIn _ List.mem_cons_self
  obtain ⟨hltL, hltR⟩ := ht.child_lt hnode
  -- all operators before this one in post-order have values, and its operands are among them
  have hall := LeadsOn.first hheads.leadsOn h.inherited (hheads.unwritten node List.mem_cons_self)
  obtain ⟨x, hx⟩ := h.exists_operand ht hall hl hltL
  obtain ⟨y, hy⟩ := h.exists_operand ht hall hr hltR
  exact ⟨x, y, hx, hy⟩

/-- When nothing is left on the stack, the root has a value. -/
theorem Heads.exists_root (hheads : l.Heads p t [] [] credit) (h : l.Sound p t) :
    ∃ value, t.look l.walk.valueAt = some value := by
  cases t with
  | leaf i v => exact ⟨v, rfl⟩
  | branch i op left right =>
      have hall := LeadsOn.nil hheads.leadsOn
      have hi : i ∈ l.written.reverse := by simp [hall, OpTree.operators]
      exact h.exists_value (List.mem_reverse.mp hi)

/-- An operator that has a value when it comes up had it when the run began. -/
theorem Heads.skip {node depth : Nat} {op : Operator} {left right : OpTree Nat}
    (hheads : l.Heads p t [] (.enter (.branch node op left right) depth :: visits) credit)
    (ht : p.arena.Shows t) (hi : node ∈ l.written) :
    node ∈ l.inherited ∧ l.LeadsOn t (visits.flatMap Visit.operators) := by
  have hahead := hheads.leadsOn
  rw [List.nil_append, List.flatMap_cons, Visit.operators, OpTree.operators, List.append_assoc,
    List.singleton_append] at hahead
  exact hahead.skip ht.operators_nodup hi

/-! ## Visits -/

/-- A visit that takes a stop off the tour, and spends no more than that and what it gains. -/
theorem Heads.visited {v : Visit} {rest visits' : List Visit} {next : List Nat} {w : Walk}
    {credit' : Nat} (hheads : l.Heads p t [] (v :: rest) credit)
    (hstack : w.Visits p.arena visits')
    (hleads : l.LeadsOn t (next ++ visits'.flatMap Visit.operators))
    (hunwritten : ∀ i ∈ next ++ visits'.flatMap Visit.entered, i ∉ l.written)
    (htour : (visits'.flatMap Visit.tour).length < ((v :: rest).flatMap Visit.tour).length)
    (hsteps : (visits'.flatMap Visit.tour).length +
        2 * (visits'.flatMap Visit.operators).length + credit' + 1 ≤
      ((v :: rest).flatMap Visit.tour).length +
        2 * ((v :: rest).flatMap Visit.operators).length + credit) :
    (l.visited w).Heads p t next visits' credit' where
  stack := hstack
  leadsOn := hleads
  unwritten := hunwritten
  popped_le := by
    have hpopped := hheads.popped_le
    simp only [Logged.visited, hheads.stack.frames_eq, List.map_cons, List.take_succ_cons,
      List.take_zero, List.length_append, List.length_singleton]
    omega
  moves_le := by
    have hmoves := hheads.moves_le
    simp only [Logged.visited]
    omega

/-- A visit that leads to no others. -/
theorem Heads.passed {v : Visit} {rest : List Visit} {w : Walk} {credit' : Nat}
    (hheads : l.Heads p t [] (v :: rest) credit) (hstack : w.Visits p.arena rest)
    (hleads : l.LeadsOn t (v.entered ++ rest.flatMap Visit.operators))
    (hcredit : credit' ≤ credit + 2 * v.operators.length) :
    (l.visited w).Heads p t v.entered rest credit' := by
  have hpos := v.length_tour_pos
  apply hheads.visited hstack hleads hheads.unwritten
  · rw [List.flatMap_cons, List.length_append]
    omega
  · rw [List.flatMap_cons, List.flatMap_cons, List.length_append, List.length_append]
    omega

/-- A visit that enters an operator. -/
theorem Heads.unfolds {node depth : Nat} {op : Operator} {left right : OpTree Nat}
    {rest : List Visit} {w : Walk}
    (hheads : l.Heads p t [] (.enter (.branch node op left right) depth :: rest) credit)
    (hstack : w.Visits p.arena (Visit.unfold node op left right depth ++ rest))
    (hnode : node ∉ l.written) :
    (l.visited w).Heads p t [] (Visit.unfold node op left right depth ++ rest) credit := by
  have hops := Visit.flatMap_operators_unfold node depth op left right rest
  have htour := congrArg List.length (Visit.flatMap_tour_unfold node depth op left right rest)
  rw [List.length_cons] at htour
  apply hheads.visited hstack
  · rw [hops]
    exact hheads.leadsOn
  · intro i hi
    rcases List.mem_cons.mp hi with rfl | hi
    · exact hnode
    · exact hheads.unwritten i hi
  · omega
  · rw [hops]
    omega

/-- A visit that ends the walk. -/
theorem Heads.ended {w : Walk} {outcome : Except EvalError Float}
    (hheads : l.Heads p t [] visits 1) (hstage : w.stage = .finished outcome) :
    (l.visited w).Stands p t := by
  have hpopped := hheads.popped_le
  have hmoves := hheads.moves_le
  have htaken : (l.walk.frames.take 1).length ≤ visits.length := by
    rw [hheads.stack.frames_eq, List.length_take, List.length_map]
    exact Nat.min_le_right _ _
  have htour := Visit.length_le_length_tour visits
  apply Stands.finished hstage
  · simp only [Logged.visited, List.length_append]
    omega
  · simp only [Logged.visited]
    omega

/-- A visit after which the walk goes on or offers a task. -/
theorem Sound.goOn {w : Walk} {next : List Nat} (h : l.Sound p t)
    (hresolved : w.resolved = l.walk.resolved) (hdue : w.stage.due? = some (next, credit))
    (hheads : ∃ visits, (l.visited w).Heads p t next visits credit) : (l.visited w).Sound p t := by
  obtain ⟨visits, hheads⟩ := hheads
  exact h.congr hresolved rfl rfl (.underWay hdue hheads)

theorem Sound.visit (h : l.Sound p t) (ht : p.arena.Shows t) (hstage : l.walk.stage = .walking)
    (fresh : TaskId) : (l.visited (p.visit fresh l.walk)).Sound p t := by
  have hdue : l.walk.stage.due? = some ([], 1) := congrArg Stage.due? hstage
  obtain ⟨visits, hheads⟩ := h.stands.heads hdue
  match visits, hheads with
  | [], hheads =>
      obtain ⟨value, hvalue⟩ := hheads.exists_root h
      rw [Plan.visit_done hheads.stack.frames_eq ht hvalue]
      exact h.congr rfl rfl rfl (hheads.ended rfl)
  | .enter (.leaf i v) depth :: rest, hheads =>
      rw [Plan.visit_leaf hheads.stack]
      refine h.goOn rfl hdue ⟨rest, ?_⟩
      exact hheads.passed hheads.stack.tail hheads.leadsOn (Nat.le_add_right 1 _)
  | .enter (.branch node op left right) depth :: rest, hheads =>
      by_cases hwritten : node ∈ l.written
      · obtain ⟨value, hvalue⟩ := h.exists_value hwritten
        have hleads := (hheads.skip ht hwritten).2
        rw [Plan.visit_skip hheads.stack hvalue]
        refine h.goOn rfl hdue ⟨rest, ?_⟩
        exact hheads.passed hheads.stack.tail hleads (Nat.le_add_right 1 _)
      · have hnone := h.valueAt_eq_none hwritten
        by_cases hdepth : p.maxDepth ≤ depth
        · rw [Plan.visit_tooDeep hheads.stack hnone hdepth]
          exact h.congr rfl rfl rfl (hheads.ended rfl)
        · rw [Plan.visit_enter hheads.stack hnone (Nat.not_le.mp hdepth)]
          refine h.goOn rfl hdue ⟨Visit.unfold node op left right depth ++ rest, ?_⟩
          exact hheads.unfolds (Plan.visits_unfold hheads.stack) hwritten
  | .leave node op left right depth :: rest, hheads =>
      obtain ⟨x, y, hx, hy⟩ := hheads.exists_operands h ht
      have hnone := h.valueAt_eq_none (hheads.unwritten node List.mem_cons_self)
      rw [Plan.visit_leave hheads.stack hnone hx hy]
      refine h.goOn rfl rfl ⟨rest, ?_⟩
      exact hheads.passed (hheads.stack.tail.congr rfl) hheads.leadsOn (Nat.le_refl 3)

/-! ## Tasks and results -/

/-- A step that leaves the stack as it is. -/
theorem Heads.moved {next : List Nat} {credit' : Nat} {w : Walk}
    (hheads : l.Heads p t next visits credit) (hframes : w.frames = l.walk.frames)
    (hcredit : credit' + 1 ≤ credit) : (l.moved w).Heads p t next visits credit' where
  stack := hheads.stack.congr hframes
  leadsOn := hheads.leadsOn
  unwritten := hheads.unwritten
  popped_le := hheads.popped_le
  moves_le := by
    have hmoves := hheads.moves_le
    simp only [Logged.moved]
    omega

/-- A step that ends the walk while a task is under way. -/
theorem Sound.ends {next : List Nat} {w : Walk} {outcome : Except EvalError Float} (h : l.Sound p t)
    (hheads : l.Heads p t next visits (credit + 1)) (hresolved : w.resolved = l.walk.resolved)
    (hstage : w.stage = .finished outcome) : (l.moved w).Sound p t := by
  have hpopped := hheads.popped_le
  have hmoves := hheads.moves_le
  refine h.congr hresolved rfl rfl (.finished hstage ?_ ?_)
  · simp only [Logged.moved]
    omega
  · simp only [Logged.moved]
    omega

theorem Sound.taken (h : l.Sound p t) {node : Nat} {task : Task}
    (hstage : l.walk.stage = .offering node task) : (l.moved l.walk.accepted).Sound p t := by
  obtain ⟨visits, hheads⟩ := h.stands.heads (congrArg Stage.due? hstage)
  rw [Walk.accepted_eq hstage]
  exact h.congr rfl rfl rfl (.underWay rfl (hheads.moved rfl (Nat.le_refl 3)))

theorem Sound.refused (h : l.Sound p t) {node : Nat} {task : Task}
    (hstage : l.walk.stage = .offering node task) : (l.moved l.walk.refused).Sound p t := by
  obtain ⟨visits, hheads⟩ := h.stands.heads (congrArg Stage.due? hstage)
  rw [Walk.refused_eq hstage]
  exact h.ends hheads rfl rfl

theorem Sound.hangUp (h : l.Sound p t) {node : Nat} {id : TaskId}
    (hstage : l.walk.stage = .awaiting node id) : (l.moved l.walk.hungUp).Sound p t := by
  obtain ⟨visits, hheads⟩ := h.stands.heads (congrArg Stage.due? hstage)
  rw [Walk.hungUp_eq hstage]
  exact h.ends hheads rfl rfl

/-- The value of an operator comes behind all that were written before. -/
theorem Sound.writes (h : l.Sound p t) (ht : p.arena.Shows t) {node : Nat}
    (hheads : l.Heads p t [node] visits 2) (value : Float) :
    Sound p t
      { l.moved { l.walk with
          stage := .walking
          resolved := l.walk.resolved.setIfInBounds node (some value) } with
        written := node :: l.written } := by
  have hnode : node ∉ l.written := hheads.unwritten node List.mem_cons_self
  have hall : (node :: l.written).reverse ++ visits.flatMap Visit.operators = t.operators := by
    rw [List.reverse_cons, List.append_assoc, List.singleton_append]
    exact LeadsOn.first hheads.leadsOn h.inherited hnode
  have hlt : node < l.walk.resolved.size := by
    rw [h.size_eq]
    apply ht.lt_size
    simp [← hall]
  refine ⟨?_, ?_, ⟨_, hall⟩, ?_, ?_⟩
  · simpa [Logged.moved] using h.size_eq
  · intro i
    rw [Walk.valueAt_resolve rfl hlt, List.mem_cons, eq_comm (a := i)]
    by_cases hi : node = i
    · simp [hi]
    · simpa [hi] using h.valued_iff i
  · exact fun i hi => List.mem_cons_of_mem _ (h.inherited i hi)
  · refine .underWay rfl ⟨hheads.stack.congr rfl, ?_, ?_, hheads.popped_le, ?_⟩
    · exact ⟨[], _, rfl, by simp, hall⟩
    · intro i hi hwritten
      have hnodup := ht.operators_nodup
      rw [← hall] at hnodup
      have hbefore := List.mem_reverse.mpr hwritten
      exact (List.nodup_append.mp hnodup).2.2 i hbefore i (Visit.mem_flatMap_operators hi) rfl
    · have hmoves := hheads.moves_le
      simp only [Logged.moved]
      omega

theorem Sound.read (h : l.Sound p t) (ht : p.arena.Shows t) {node : Nat} {id : TaskId}
    (hstage : l.walk.stage = .awaiting node id) (r : TaskResult) :
    (l.read node id r).Sound p t := by
  obtain ⟨visits, hheads⟩ := h.stands.heads (congrArg Stage.due? hstage)
  unfold Logged.read
  by_cases hmatch : r.id = id
  · rw [if_pos hmatch]
    cases hout : r.outcome with
    | ok value =>
        rw [Walk.received_value hstage hmatch hout]
        exact h.writes ht hheads value
    | error cause =>
        rw [Walk.received_failure hstage hmatch hout]
        exact h.ends hheads rfl rfl
  · rw [if_neg hmatch, Walk.received_stale hstage hmatch]
    exact h

/-! ## Runs -/

/-- A run begins at the root, ahead of all operators. -/
theorem heads_begin (ht : p.arena.Shows t) (hframes : l.walk.frames = [Frame.enter p.arena.root 0])
    (hpopped : l.popped = []) (hmoves : l.moves = 0) (hinherited : l.inherited = l.written)
    (hinitial : l.written.reverse <+: t.operators) : l.Heads p t [] [.enter t 0] 1 := by
  obtain ⟨coming, hcoming⟩ := hinitial
  refine ⟨⟨?_, ?_⟩, ⟨l.written.reverse, coming, ?_, ?_, hcoming⟩, ?_, ?_, ?_⟩
  · simp [hframes, Visit.frame, ht.root_eq]
  · simpa [Visit.tree] using ht.liesIn
  · simpa [Visit.operators] using hcoming.symm
  · simp [hinherited]
  · simp [Visit.entered]
  · simp [hpopped, Visit.tour]
  · simp [hmoves, Visit.tour, Visit.operators]

theorem sound_start (ht : p.arena.Shows t) : (start p).Sound p t where
  size_eq := by simp [start, Plan.start]
  valued_iff i := by
    simp [start, Plan.start, Walk.valueAt, Array.getElem?_replicate]
    split <;> rfl
  initial := List.nil_prefix
  inherited := List.forall_mem_nil _
  stands := .underWay rfl (heads_begin ht rfl rfl rfl rfl List.nil_prefix)

/-- A new run finds the values of the ones before it. -/
theorem Sound.again (h : l.Sound p t) (ht : p.arena.Shows t) :
    Sound p t ⟨p.restart l.walk, [], 0, l.written, l.written⟩ where
  size_eq := h.size_eq
  valued_iff := h.valued_iff
  initial := h.initial
  inherited := fun _ hi => hi
  stands := .underWay rfl (heads_begin ht rfl rfl rfl rfl h.initial)

theorem Sound.step (h : l.Sound p t) (ht : p.arena.Shows t) {s : Step}
    (hl : l.step? p s = some l') : l'.Sound p t := by
  unfold step? at hl
  split at hl
  · next hstage =>
    cases hl
    exact h.visit ht hstage _
  · next hstage =>
    cases hl
    exact h.taken hstage
  · next hstage =>
    cases hl
    exact h.refused hstage
  · next hstage =>
    cases hl
    exact h.read ht hstage _
  · next hstage =>
    cases hl
    exact h.hangUp hstage
  · cases hl
    exact h.again ht
  · cases hl

theorem Sound.steps {steps : List Step} (h : l.Sound p t) (ht : p.arena.Shows t)
    (hl : l.steps? p steps = some l') : l'.Sound p t := by
  induction steps generalizing l with
  | nil => exact Option.some.inj hl ▸ h
  | cons s rest ih =>
      obtain ⟨next, hstep, hrest⟩ := Option.bind_eq_some_iff.mp hl
      exact ih (h.step ht hstep) hrest

end Logged

end TaskFarm
