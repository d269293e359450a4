import TaskFarm.Proofs.Expr.Shape
import TaskFarm.Proofs.Walk.Refinement

/-!
# The way of a walk through its tree

A walk goes through its tree from left to right.  It comes by each number once, and by each operator
twice: when it enters it, and when it has done both operands.  What is behind a walk and what its
stack still leads to are together this whole tour, as long as the walk has not ended.

Two things are read off here.  A turn is long enough for the rest of the tour, so that the walk
stands still afterwards.  And a walk that goes too deep has come to the first operator of its tour
that lies as deep as the limit.
-/

namespace TaskFarm

open TaskFarm.Expr (Arena Operator OpTree)
open Assignment (nodes AllAnswered)

/-- What a walk comes by. -/
inductive Stop where
  | number (node : Nat)
  /-- An operator is entered, with so many operators above it. -/
  | enter (node depth : Nat)
  /-- Both operands of an operator are done. -/
  | leave (node : Nat)
  deriving DecidableEq, Repr

namespace Stop

def left? : Stop → Option Nat
  | leave node => some node
  | _ => none

/-- The operators that have been done along a way. -/
def done (stops : List Stop) : List Nat :=
  stops.filterMap left?

theorem done_append (stops more : List Stop) : done (stops ++ more) = done stops ++ done more :=
  List.filterMap_append

end Stop

namespace Expr.OpTree

/-- The way through a tree that has `depth` operators above it. -/
def tour : OpTree Nat → Nat → List Stop
  | leaf i _, _ => [.number i]
  | branch i _ l r, depth =>
    .enter i depth :: (l.tour (depth + 1) ++ r.tour (depth + 1) ++ [.leave i])

theorem length_tour (t : OpTree Nat) (depth : Nat) :
    (t.tour depth).length = t.postOrder.length + t.operators.length := by
  induction t generalizing depth with
  | leaf i v => rfl
  | branch i op l r ihl ihr =>
      simp only [tour, postOrder, operators, List.length_cons, List.length_append,
        List.length_nil, ihl, ihr]
      omega

theorem done_tour (t : OpTree Nat) (depth : Nat) : Stop.done (t.tour depth) = t.operators := by
  induction t generalizing depth with
  | leaf i v => rfl
  | branch i op l r ihl ihr =>
      have hcons : ∀ stops, Stop.done (.enter i depth :: stops) = Stop.done stops := fun _ => rfl
      rw [tour, hcons, Stop.done_append, Stop.done_append, ihl, ihr]
      rfl

end Expr.OpTree

namespace Visit

/-- The stops that a visit leads to. -/
def tour : Visit → List Stop
  | enter t depth => t.tour depth
  | leave node _ _ _ _ => [.leave node]

def depth : Visit → Nat
  | enter _ depth => depth
  | leave _ _ _ _ depth => depth

theorem done_tour (v : Visit) : Stop.done v.tour = v.operators := by
  cases v with
  | enter t depth => exact t.done_tour depth
  | leave node op l r depth => rfl

theorem done_flatMap_tour (visits : List Visit) :
    Stop.done (visits.flatMap tour) = visits.flatMap operators := by
  induction visits with
  | nil => rfl
  | cons v rest ih =>
      rw [List.flatMap_cons, List.flatMap_cons, Stop.done_append, ih, done_tour]

/-- An operator is entered before its operands are visited. -/
theorem flatMap_tour_unfold (node depth : Nat) (op : Operator) (l r : OpTree Nat)
    (rest : List Visit) :
    .enter node depth :: (unfold node op l r depth ++ rest).flatMap tour =
      (enter (.branch node op l r) depth :: rest).flatMap tour := by
  simp [unfold, tour, OpTree.tour]

end Visit

/-! ## Standing still -/

/-- A turn that is longer than the stops ahead comes to an end. -/
theorem Outing.Sound.advance_halts {p : Plan} {t : OpTree Nat} {w : Walk} {xs : List Assignment}
    (h : Sound p t ⟨w, xs⟩) (ht : p.arena.Shows t) (fresh : TaskId) {visits : List Visit}
    (hv : w.Visits p.arena visits) {fuel : Nat} (hfuel : (visits.flatMap Visit.tour).length < fuel) :
    (p.advance fresh fuel w).stage ≠ .walking := by
  induction fuel generalizing w visits with
  | zero => exact absurd hfuel (Nat.not_lt_zero _)
  | succ fuel ih =>
      by_cases hstage : w.stage = .walking
      · have hnext := h.visit hstage ht fresh
        obtain ⟨visits', -, hv', -, hvisited⟩ := h.visited hstage ht fresh
        obtain rfl := hv.unique hv'
        simp only [Plan.advance, hstage]
        generalize p.visit fresh w = w' at hvisited hnext
        cases hvisited with
        | done hvalue =>
            rw [Plan.advance_of_ne_walking (by simp)]
            simp
        | leaf =>
            refine ih hnext hv.tail ?_
            simpa [Visit.tour, OpTree.tour] using hfuel
        | tooDeep hdepth =>
            rw [Plan.advance_of_ne_walking (by simp)]
            simp
        | enter hdepth =>
            refine ih hnext (Plan.visits_unfold hv) ?_
            rw [← Visit.flatMap_tour_unfold, List.length_cons] at hfuel
            exact Nat.lt_of_succ_lt_succ hfuel
        | leave hx hy =>
            rw [Plan.advance_of_ne_walking (by simp)]
            simp
      · rwa [Plan.advance_of_ne_walking hstage]

/-! ## The invariant -/

/-- What is behind a walk and what its stack leads to are the tour of a tree.  None of the operators
behind it lies as deep as the limit, and nothing ahead begins deeper. -/
def Walk.OnTour (p : Plan) (t : OpTree Nat) (w : Walk) : Prop :=
  ∃ past visits, w.Visits p.arena visits ∧ past ++ visits.flatMap Visit.tour = t.tour 0 ∧
    (∀ node, .enter node p.maxDepth ∉ past) ∧ ∀ v ∈ visits, v.depth ≤ p.maxDepth

theorem Walk.OnTour.congr {p : Plan} {t : OpTree Nat} {w w' : Walk} (h : w.OnTour p t)
    (hframes : w'.frames = w.frames) : w'.OnTour p t := by
  obtain ⟨past, visits, hv, htour, hpast, hdepths⟩ := h
  exact ⟨past, visits, hv.congr hframes, htour, hpast, hdepths⟩

/-- A walk that went too deep came to an operator as deep as the limit, after all operators that are
done before it, and met no other one as deep before. -/
def Plan.Meets (p : Plan) (t : OpTree Nat) (completed : List Nat) : Prop :=
  ∃ past node rest, t.tour 0 = past ++ .enter node p.maxDepth :: rest ∧
    (∀ node, .enter node p.maxDepth ∉ past) ∧ Stop.done past = completed

namespace Outing

/-- Where an outing is on the tour of its tree, and why it ended there. -/
def Toured (p : Plan) (t : OpTree Nat) (o : Outing) : Prop :=
  match o.walk.stage with
  | .walking | .offering _ _ | .awaiting _ _ => o.walk.OnTour p t
  | .finished (.ok _) => ∀ node, .enter node p.maxDepth ∉ t.tour 0
  | .finished (.error (.depthExceeded depth maxDepth)) =>
    depth = p.maxDepth ∧ maxDepth = p.maxDepth ∧ p.Meets t (nodes o.assignments)
  | .finished (.error (.task _ cause)) => ∃ x ∈ o.assignments, x.reply? = some (.error cause)
  | .finished (.error (.resultChannelClosed _)) => ∃ x ∈ o.assignments, x.reply? = none
  | .finished (.error .taskChannelClosed) => True
  | .stuck => False

variable {p : Plan} {t : OpTree Nat} {w : Walk} {xs : List Assignment}

theorem toured_start (ht : p.arena.Shows t) : Toured p t ⟨p.start, []⟩ := by
  refine ⟨[], [.enter t 0], ⟨?_, ?_⟩, ?_, ?_, ?_⟩
  · simp [Plan.start, Visit.frame, ht.root_eq]
  · simpa [Visit.tree] using ht.liesIn
  · simp [Visit.tour]
  · simp
  · simp [Visit.depth]

theorem Toured.visit (h : Toured p t ⟨w, xs⟩) (hsound : Sound p t ⟨w, xs⟩)
    (hstage : w.stage = .walking) (ht : p.arena.Shows t) (fresh : TaskId) :
    Toured p t ⟨p.visit fresh w, xs⟩ := by
  obtain ⟨visits, -, hv, hops, hvisited⟩ := hsound.visited hstage ht fresh
  simp only [Toured, hstage] at h
  obtain ⟨past, visits', hv', htour, hpast, hdepths⟩ := h
  obtain rfl := hv.unique hv'
  generalize p.visit fresh w = w' at hvisited
  cases hvisited with
  | done hvalue =>
      rw [List.flatMap_nil, List.append_nil] at htour
      simpa only [Toured, ← htour] using hpast
  | @leaf i depth value rest =>
      simp only [Toured, hstage]
      refine ⟨past ++ [.number i], rest, hv.tail.congr rfl, ?_, ?_, fun v hv => ?_⟩
      · rw [← htour]
        simp [Visit.tour, OpTree.tour]
      · simpa using hpast
      · exact hdepths v (List.mem_cons_of_mem _ hv)
  | @tooDeep node depth op l r rest hdepth =>
      obtain rfl : depth = p.maxDepth := Nat.le_antisymm (hdepths _ List.mem_cons_self) hdepth
      rw [← Visit.flatMap_tour_unfold] at htour
      refine ⟨rfl, rfl, past, node, _, htour.symm, hpast, ?_⟩
      -- both lists are what is left of the operators in front of those on the stack
      have hdone := congrArg Stop.done htour
      rw [Visit.flatMap_tour_unfold, Stop.done_append, Visit.done_flatMap_tour, OpTree.done_tour,
        ← hops] at hdone
      exact List.append_cancel_right hdone
  | @enter node depth op l r rest hdepth =>
      simp only [Toured, hstage]
      refine ⟨past ++ [.enter node depth], _, (Plan.visits_unfold hv).congr rfl, ?_, ?_, ?_⟩
      · rw [← htour, ← Visit.flatMap_tour_unfold, List.append_assoc, List.singleton_append]
      · intro other
        have hne : p.maxDepth ≠ depth := (Nat.ne_of_lt hdepth).symm
        simp [hpast other, hne]
      · intro v hv
        simp only [Visit.unfold, List.cons_append, List.nil_append, List.mem_cons] at hv
        rcases hv with rfl | rfl | rfl | hv
        · exact hdepth
        · exact hdepth
        · exact Nat.le_of_lt hdepth
        · exact hdepths v (List.mem_cons_of_mem _ hv)
  | @leave node depth op l r rest x y hx hy =>
      refine ⟨past ++ [.leave node], rest, hv.tail.congr rfl, ?_, ?_, fun v hv => ?_⟩
      · rw [← htour]
        simp [Visit.tour]
      · simpa using hpast
      · exact hdepths v (List.mem_cons_of_mem _ hv)

theorem Toured.turn (h : Toured p t ⟨w, xs⟩) (hsound : Sound p t ⟨w, xs⟩) (ht : p.arena.Shows t)
    (fresh : TaskId) : Toured p t ⟨p.proceed fresh w, xs⟩ := by
  have hboth := Plan.proceed_induction (p := p)
    (P := fun w => Sound p t ⟨w, xs⟩ ∧ Toured p t ⟨w, xs⟩)
    (fun w hstage hw => ⟨hw.1.visit hstage ht fresh, hw.2.visit hw.1 hstage ht fresh⟩) ⟨hsound, h⟩
  exact hboth.2

theorem Toured.taken (h : Toured p t ⟨w, xs⟩) {node : Nat} {task : Task}
    (hstage : w.stage = .offering node task) :
    Toured p t ⟨w.accepted, ⟨node, task, []⟩ :: xs⟩ := by
  simp only [Toured, hstage] at h
  rw [Walk.accepted_eq hstage]
  exact h.congr rfl

theorem Toured.hangUp (hsound : Sound p t ⟨w, xs⟩) {node : Nat} {id : TaskId}
    (hstage : w.stage = .awaiting node id) : Toured p t ⟨w.hungUp, xs⟩ := by
  have hstands := hsound.stands
  simp only [Stands, hstage] at hstands
  obtain ⟨x, earlier, rfl, -, -, hreply, -⟩ := hstands
  rw [Walk.hungUp_eq hstage]
  exact ⟨x, List.mem_cons_self, hreply⟩

theorem Toured.result (h : Toured p t ⟨w, xs⟩) (hsound : Sound p t ⟨w, xs⟩) {node : Nat}
    {id : TaskId} (hstage : w.stage = .awaiting node id) (r : TaskResult) :
    Toured p t ⟨w.received r, Assignment.readLatest r xs⟩ := by
  have hstands := hsound.stands
  simp only [Stands, hstage] at hstands
  obtain ⟨x, earlier, rfl, -, hid, hreply, -⟩ := hstands
  simp only [Toured, hstage] at h
  by_cases hmatch : r.id = id
  · cases hout : r.outcome with
    | ok value =>
        rw [Walk.received_value hstage hmatch hout]
        exact h.congr rfl
    | error cause =>
        rw [Walk.received_failure hstage hmatch hout]
        refine ⟨_, List.mem_cons_self, ?_⟩
        rw [Assignment.reply?_read hreply, if_pos (hmatch.trans hid.symm), hout]
  · simp only [Toured, Walk.received_stale hstage hmatch, hstage]
    exact h

theorem Toured.after {o : Outing} (h : o.Toured p t) (hsound : o.Sound p t)
    (ht : p.arena.Shows t) (s : Signal) : (o.after p s).Toured p t := by
  unfold Outing.after
  split
  · exact h.turn hsound ht _
  · next hstage => exact h.taken hstage
  · next node task hstage => simp [Toured, Walk.refused, hstage]
  · next hstage => exact h.result hsound hstage _
  · next hstage => exact Toured.hangUp hsound hstage
  · exact h

theorem toured_outing (ht : p.arena.Shows t) (signals : List Signal) :
    (p.outing signals).Toured p t := by
  suffices hboth : (p.outing signals).Sound p t ∧ (p.outing signals).Toured p t from hboth.2
  unfold Plan.outing
  apply List.foldlRecOn (motive := fun o : Outing => o.Sound p t ∧ o.Toured p t)
  · exact ⟨sound_start ht, toured_start ht⟩
  · exact fun o h s _ => ⟨h.1.after ht s, h.2.after h.1 ht s⟩

/-- After a turn a walk stands still. -/
theorem Toured.turn_halts {o : Outing} (h : o.Toured p t) (hsound : o.Sound p t)
    (ht : p.arena.Shows t) (fresh : TaskId) :
    (o.after p (.turn fresh)).walk.stage ≠ .walking := by
  by_cases hstage : o.walk.stage = .walking
  · have hturn : o.after p (.turn fresh) = { o with walk := p.proceed fresh o.walk } := by
      simp [Outing.after, hstage]
    rw [hturn]
    simp only [Toured, hstage] at h
    obtain ⟨past, visits, hv, htour, -, -⟩ := h
    refine hsound.advance_halts ht fresh hv (Nat.lt_succ_of_le ?_)
    have hlength := congrArg List.length htour
    rw [List.length_append, OpTree.length_tour] at hlength
    have hle := t.operators_sublist_postOrder.length_le
    rw [ht.size_eq]
    omega
  · have hturn : o.after p (.turn fresh) = o := by simp [Outing.after, hstage]
    rwa [hturn]

end Outing

end TaskFarm
