import TaskFarm.Walk
import TaskFarm.Proofs.Expr.Tree

/-!
# The frames of a walk as parts of the tree

A frame names a node by its index.  Here each frame is read as a visit to a part of the tree, and
the moves of a walk between two tasks are restated for visits, one lemma for each thing that a
single visit can come to.  Every invariant of a walk is proved from these.
-/

namespace TaskFarm

open TaskFarm.Expr (Arena Node Operator OpTree)

/-- A frame together with the part of the tree that it is about. -/
inductive Visit where
  /-- The part is to be visited. -/
  | enter (tree : OpTree Nat) (depth : Nat)
  /-- The operands of an operator have been visited, and its task is to be made. -/
  | leave (node : Nat) (op : Operator) (left right : OpTree Nat) (depth : Nat)

namespace Visit

def frame : Visit → Frame
  | enter t depth => .enter t.label depth
  | leave node _ _ _ depth => ⟨node, depth, true⟩

def tree : Visit → OpTree Nat
  | enter t _ => t
  | leave node op left right _ => .branch node op left right

/-- The operators whose tasks the visit leads to, in post-order. -/
def operators : Visit → List Nat
  | enter t _ => t.operators
  | leave node _ _ _ _ => [node]

/-- The visits that take the place of an operator when it is entered. -/
def unfold (node : Nat) (op : Operator) (left right : OpTree Nat) (depth : Nat) : List Visit :=
  [enter left (depth + 1), enter right (depth + 1), leave node op left right depth]

/-- A frame is about one part of an arena only. -/
theorem eq_of_frame {a : Arena} {u v : Visit} (hu : u.tree.LiesIn a.entries)
    (hv : v.tree.LiesIn a.entries) (hframe : u.frame = v.frame) : u = v := by
  cases u with
  | enter t depth =>
      cases v with
      | enter t' depth' =>
          simp only [frame, Frame.enter, Frame.mk.injEq, and_true] at hframe
          obtain ⟨hlabel, rfl⟩ := hframe
          exact congrArg (enter · depth) (hu.eq_of_label hv hlabel)
      | leave node op l r depth' => simp [frame, Frame.enter] at hframe
  | leave node op l r depth =>
      cases v with
      | enter t' depth' => simp [frame, Frame.enter] at hframe
      | leave node' op' l' r' depth' =>
          simp only [frame, Frame.mk.injEq, and_true] at hframe
          obtain ⟨hnode, rfl⟩ := hframe
          cases hu.eq_of_label hv hnode
          rfl

end Visit

namespace Walk

/-- The stack of a walk consists of the frames of some visits to parts of an arena. -/
structure Visits (a : Arena) (visits : List Visit) (w : Walk) : Prop where
  frames_eq : w.frames = visits.map Visit.frame
  liesIn : ∀ v ∈ visits, v.tree.LiesIn a.entries

theorem Visits.tail {a : Arena} {v : Visit} {visits : List Visit} {w : Walk}
    (h : w.Visits a (v :: visits)) :
    ({ w with frames := visits.map Visit.frame } : Walk).Visits a visits :=
  ⟨rfl, fun u hu => h.liesIn u (by simp [hu])⟩

theorem Visits.exists_cons {a : Arena} {visits : List Visit} {w : Walk} {frame : Frame}
    {below : List Frame} (h : w.Visits a visits) (hframes : w.frames = frame :: below) :
    ∃ v rest, visits = v :: rest ∧ v.frame = frame := by
  cases visits with
  | nil => cases hframes.symm.trans h.frames_eq
  | cons v rest =>
      have hframe := (List.cons_eq_cons.mp (h.frames_eq.symm.trans hframes)).1
      exact ⟨v, rest, rfl, hframe⟩

/-- A change that leaves the stack alone leaves the visits alone. -/
theorem Visits.congr {a : Arena} {visits : List Visit} {w w' : Walk}
    (h : w.Visits a visits) (hframes : w'.frames = w.frames) : w'.Visits a visits :=
  ⟨hframes.trans h.frames_eq, h.liesIn⟩

theorem Visits.unique {a : Arena} {visits visits' : List Visit} {w : Walk}
    (h : w.Visits a visits) (h' : w.Visits a visits') : visits = visits' := by
  have hframes : visits.map Visit.frame = visits'.map Visit.frame :=
    h.frames_eq.symm.trans h'.frames_eq
  have hlies := h.liesIn
  have hlies' := h'.liesIn
  clear h h'
  induction visits generalizing visits' with
  | nil => exact (List.map_eq_nil_iff.mp hframes.symm).symm
  | cons v rest ih =>
      cases visits' with
      | nil => cases hframes
      | cons v' rest' =>
          obtain ⟨hframe, hrest⟩ := List.cons_eq_cons.mp hframes
          have hv := Visit.eq_of_frame (hlies v List.mem_cons_self)
            (hlies' v' List.mem_cons_self) hframe
          rw [hv, ih hrest (fun u hu => hlies u (List.mem_cons_of_mem _ hu))
            fun u hu => hlies' u (List.mem_cons_of_mem _ hu)]

end Walk

/-- The value of a part of the tree: a number is its own, an operator's is in the table. -/
def Expr.OpTree.look (table : Nat → Option Float) : OpTree Nat → Option Float
  | .leaf _ value => some value
  | .branch node _ _ _ => table node

namespace Plan

variable {p : Plan} {fresh : TaskId} {w : Walk} {visits : List Visit}

theorem operand_eq_look {t : OpTree Nat} (h : t.LiesIn p.arena.entries) :
    p.operand w t.label = t.look w.valueAt := by
  cases t with
  | leaf i v =>
      have hnode : p.arena.node? i = some (.number v) := h
      simp [operand, OpTree.label, OpTree.look, hnode]
  | branch i op l r =>
      have hnode : p.arena.node? i = some (.binary op l.label r.label) := h.1
      simp [operand, OpTree.label, OpTree.look, hnode]

/-- An empty stack ends the walk with the value of the root. -/
theorem visit_done {t : OpTree Nat} {value : Float} (hframes : w.frames = [])
    (ht : p.arena.Shows t) (hvalue : t.look w.valueAt = some value) :
    p.visit fresh w = { w with stage := .finished (.ok value) } := by
  have hroot : p.operand w p.arena.root = some value := by
    rw [← ht.root_eq, operand_eq_look ht.liesIn, hvalue]
  simp [visit, hframes, hroot]

theorem visit_leaf {i depth : Nat} {value : Float}
    (h : w.Visits p.arena (.enter (.leaf i value) depth :: visits)) :
    p.visit fresh w = { w with frames := visits.map Visit.frame } := by
  have hnode : p.arena.node? i = some (.number value) := h.liesIn _ List.mem_cons_self
  simp [visit, h.frames_eq, Visit.frame, Frame.enter, OpTree.label, hnode]

/-- An operator that has a value is not entered. -/
theorem visit_skip {node depth : Nat} {op : Operator} {left right : OpTree Nat} {value : Float}
    (h : w.Visits p.arena (.enter (.branch node op left right) depth :: visits))
    (hvalue : w.valueAt node = some value) :
    p.visit fresh w = { w with frames := visits.map Visit.frame } := by
  have hnode : p.arena.node? node = some (.binary op left.label right.label) :=
    (h.liesIn _ List.mem_cons_self).1
  simp [visit, h.frames_eq, Visit.frame, Frame.enter, OpTree.label, hnode, hvalue]

/-- An operator with too many operators above it ends the walk. -/
theorem visit_tooDeep {node depth : Nat} {op : Operator} {left right : OpTree Nat}
    (h : w.Visits p.arena (.enter (.branch node op left right) depth :: visits))
    (hvalue : w.valueAt node = none) (hdepth : p.maxDepth ≤ depth) :
    p.visit fresh w =
      { w with
        frames := visits.map Visit.frame
        stage := .finished (.error (.depthExceeded depth p.maxDepth)) } := by
  have hnode : p.arena.node? node = some (.binary op left.label right.label) :=
    (h.liesIn _ List.mem_cons_self).1
  simp [visit, h.frames_eq, Visit.frame, Frame.enter, OpTree.label, hnode, hvalue, hdepth]

/-- An operator that is entered puts its operands and itself on the stack. -/
theorem visit_enter {node depth : Nat} {op : Operator} {left right : OpTree Nat}
    (h : w.Visits p.arena (.enter (.branch node op left right) depth :: visits))
    (hvalue : w.valueAt node = none) (hdepth : depth < p.maxDepth) :
    p.visit fresh w =
      { w with
        frames := (Visit.unfold node op left right depth ++ visits).map Visit.frame } := by
  have hnode : p.arena.node? node = some (.binary op left.label right.label) :=
    (h.liesIn _ List.mem_cons_self).1
  have hshallow : ¬p.maxDepth ≤ depth := Nat.not_le.mpr hdepth
  simp [visit, h.frames_eq, Visit.frame, Frame.enter, OpTree.label, hnode, hvalue, hshallow,
    Visit.unfold]

theorem visits_unfold {node depth : Nat} {op : Operator} {left right : OpTree Nat}
    (h : w.Visits p.arena (.enter (.branch node op left right) depth :: visits)) :
    ({ w with
      frames := (Visit.unfold node op left right depth ++ visits).map Visit.frame } : Walk).Visits
        p.arena (Visit.unfold node op left right depth ++ visits) := by
  refine ⟨rfl, ?_⟩
  obtain ⟨hnode, hleft, hright⟩ := h.liesIn _ List.mem_cons_self
  intro v hv
  simp only [Visit.unfold, List.cons_append, List.nil_append, List.mem_cons] at hv
  rcases hv with rfl | rfl | rfl | hv
  · exact hleft
  · exact hright
  · exact ⟨hnode, hleft, hright⟩
  · exact h.liesIn v (by simp [hv])

/-- An operator whose operands have values is offered as a task. -/
theorem visit_leave {node depth : Nat} {op : Operator} {left right : OpTree Nat} {x y : Float}
    (h : w.Visits p.arena (.leave node op left right depth :: visits))
    (hvalue : w.valueAt node = none) (hx : left.look w.valueAt = some x)
    (hy : right.look w.valueAt = some y) :
    p.visit fresh w =
      { w with
        frames := visits.map Visit.frame
        stage := .offering node (Task.make fresh op x y (p.costs.of op)) } := by
  obtain ⟨hnode, hleft, hright⟩ := h.liesIn _ List.mem_cons_self
  have hbinary : p.arena.node? node = some (.binary op left.label right.label) := hnode
  have hl : p.operand w left.label = some x := (operand_eq_look hleft).trans hx
  have hr : p.operand w right.label = some y := (operand_eq_look hright).trans hy
  simp [visit, h.frames_eq, Visit.frame, hbinary, hvalue, hl, hr]

/-- Everything that the next visit can come to, if the operators still to be visited have no values
and those before them have. -/
inductive Visited (p : Plan) (t : OpTree Nat) (fresh : TaskId) (w : Walk) :
    List Visit → Walk → Prop where
  | done {value : Float} (hvalue : t.look w.valueAt = some value) :
    Visited p t fresh w [] { w with stage := .finished (.ok value) }
  | leaf {i depth : Nat} {value : Float} {rest : List Visit} :
    Visited p t fresh w (.enter (.leaf i value) depth :: rest)
      { w with frames := rest.map Visit.frame }
  | tooDeep {node depth : Nat} {op : Operator} {l r : OpTree Nat} {rest : List Visit}
    (hdepth : p.maxDepth ≤ depth) :
    Visited p t fresh w (.enter (.branch node op l r) depth :: rest)
      { w with
        frames := rest.map Visit.frame
        stage := .finished (.error (.depthExceeded depth p.maxDepth)) }
  | enter {node depth : Nat} {op : Operator} {l r : OpTree Nat} {rest : List Visit}
    (hdepth : depth < p.maxDepth) :
    Visited p t fresh w (.enter (.branch node op l r) depth :: rest)
      { w with frames := (Visit.unfold node op l r depth ++ rest).map Visit.frame }
  | leave {node depth : Nat} {op : Operator} {l r : OpTree Nat} {rest : List Visit} {x y : Float}
    (hx : l.look w.valueAt = some x) (hy : r.look w.valueAt = some y) :
    Visited p t fresh w (.leave node op l r depth :: rest)
      { w with
        frames := rest.map Visit.frame
        stage := .offering node (Task.make fresh op x y (p.costs.of op)) }

/-- A visit finds no values. -/
theorem visit_resolved : (p.visit fresh w).resolved = w.resolved := by
  unfold visit
  split
  · split <;> rfl
  · split
    · rfl
    · rfl
    · split
      · rfl
      · split
        · split <;> rfl
        · split <;> rfl

/-- A walk that finds its stack empty does not go on. -/
theorem visit_of_frames_nil (hframes : w.frames = []) : (p.visit fresh w).stage ≠ .walking := by
  simp only [visit, hframes]
  split <;> simp

/-- A walk that stands still makes no visits. -/
theorem advance_of_ne_walking (hstage : w.stage ≠ .walking) (fuel : Nat) :
    p.advance fresh fuel w = w := by
  cases fuel with
  | zero => rfl
  | succ fuel => simp [advance]

/-- What holds of a walk and is kept by every visit holds after any number of them. -/
theorem advance_induction {P : Walk → Prop}
    (hvisit : ∀ w, w.stage = .walking → P w → P (p.visit fresh w)) (fuel : Nat) (h : P w) :
    P (p.advance fresh fuel w) := by
  induction fuel generalizing w with
  | zero => exact h
  | succ fuel ih =>
      rw [advance]
      split
      · next hstage => exact ih (hvisit w hstage h)
      · exact h

/-- What holds of a walk and is kept by every visit holds when the walk stands still. -/
theorem proceed_induction {P : Walk → Prop}
    (hvisit : ∀ w, w.stage = .walking → P w → P (p.visit fresh w)) (h : P w) :
    P (p.proceed fresh w) :=
  advance_induction hvisit (2 * p.arena.size + 1) h

/-- A walk that goes on makes one visit at least. -/
theorem proceed_of_walking (hstage : w.stage = .walking) :
    p.proceed fresh w = p.advance fresh (2 * p.arena.size) (p.visit fresh w) := by
  simp only [proceed, advance, hstage]

end Plan

/-! What a walk that stands still makes of the answers from outside. -/

namespace Walk

variable {w : Walk} {node : Nat} {task : Task} {id : TaskId} {r : TaskResult}

theorem accepted_eq (hstage : w.stage = .offering node task) :
    w.accepted =
      { w with stage := .awaiting node task.id, emitted := w.emitted.push task.id } := by
  simp [accepted, hstage]

theorem refused_eq (hstage : w.stage = .offering node task) :
    w.refused = { w with stage := .finished (.error .taskChannelClosed) } := by
  simp [refused, hstage]

theorem hungUp_eq (hstage : w.stage = .awaiting node id) :
    w.hungUp = { w with stage := .finished (.error (.resultChannelClosed id)) } := by
  simp [hungUp, hstage]

theorem received_value {value : Float} (hstage : w.stage = .awaiting node id) (hid : r.id = id)
    (hvalue : r.outcome = .ok value) :
    w.received r =
      { w with
        stage := .walking
        resolved := w.resolved.setIfInBounds node (some value) } := by
  simp [received, hstage, hid, hvalue]

theorem received_failure {cause : TaskError} (hstage : w.stage = .awaiting node id)
    (hid : r.id = id) (hcause : r.outcome = .error cause) :
    w.received r = { w with stage := .finished (.error (.task id cause)) } := by
  simp [received, hstage, hid, hcause]

theorem received_stale (hstage : w.stage = .awaiting node id) (hid : r.id ≠ id) :
    w.received r = w := by
  simp [received, hstage, hid]

end Walk

end TaskFarm
