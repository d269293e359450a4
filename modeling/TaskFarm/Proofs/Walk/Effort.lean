import TaskFarm.Proofs.Expr.Shape
import TaskFarm.Proofs.Walk.Refinement

/-!
# How many steps a walk takes

The effort of a tree counts the visits to its nodes and what has to be done for each of its tasks
until the result is there.  What is left of it gets less with every visit, so that a walk whose
tasks are answered comes to its end.
-/

namespace TaskFarm

open TaskFarm.Expr (Arena OpTree)

/-- The steps that a tree takes: one for each number; two visits to each operator and ten steps
for its task. -/
def Expr.OpTree.effort {α : Type} : OpTree α → Nat
  | .leaf _ _ => 1
  | .branch _ _ l r => l.effort + r.effort + 12

theorem Expr.OpTree.effort_le {α : Type} (t : OpTree α) :
    t.effort + 12 ≤ 13 * t.postOrder.length := by
  induction t with
  | leaf i v => exact Nat.le_refl _
  | branch i op l r ihl ihr =>
      simp only [effort, postOrder, List.length_append, List.length_singleton]
      omega

def Visit.effort : Visit → Nat
  | enter t _ => t.effort
  | leave _ _ _ _ _ => 11

/-- The steps that some visits lead to. -/
def Visit.efforts : List Visit → Nat
  | [] => 0
  | v :: rest => v.effort + efforts rest

namespace Walk

/-- The visits on the stack and the given rest together are at most so many steps. -/
def Owes (p : Plan) (rest n : Nat) (w : Walk) : Prop :=
  ∃ visits, w.Visits p.arena visits ∧ Visit.efforts visits + rest ≤ n

/-- A walk takes at most so many steps until it is over, if the task that it waits for is answered
at once. -/
def Takes (p : Plan) (n : Nat) (w : Walk) : Prop :=
  -- the visit that finds nothing left and the end of the run are two steps; a task that is offered
  -- takes ten, of which one is left when its result is there
  match w.stage with
  | .walking => w.Owes p 2 n
  | .offering _ _ => w.Owes p 12 n
  | .awaiting _ _ => w.Owes p 3 n
  | .finished _ => 1 ≤ n
  | .stuck => False

variable {p : Plan} {w w' : Walk} {n rest : Nat}

theorem Owes.congr {rest' n' : Nat} (h : w.Owes p rest n) (hframes : w'.frames = w.frames)
    (hle : rest' + n ≤ rest + n') : w'.Owes p rest' n' := by
  obtain ⟨visits, hv, hn⟩ := h
  exact ⟨visits, hv.congr hframes, by omega⟩

theorem Takes.mono {n' : Nat} (h : w.Takes p n) (hle : n ≤ n') : w.Takes p n' := by
  unfold Takes at h ⊢
  split
  · next hstage =>
    rw [hstage] at h
    exact h.congr rfl (by omega)
  · next hstage =>
    rw [hstage] at h
    exact h.congr rfl (by omega)
  · next hstage =>
    rw [hstage] at h
    exact h.congr rfl (by omega)
  · next hstage =>
    rw [hstage] at h
    exact Nat.le_trans h hle
  · next hstage =>
    rw [hstage] at h
    exact h

theorem Takes.pos (h : w.Takes p n) : 0 < n := by
  unfold Takes at h
  split at h
  · obtain ⟨visits, -, hn⟩ := h
    omega
  · obtain ⟨visits, -, hn⟩ := h
    omega
  · obtain ⟨visits, -, hn⟩ := h
    omega
  · exact h
  · exact h.elim

theorem takes_start {t : OpTree Nat} (ht : p.arena.Shows t) :
    p.start.Takes p (t.effort + 2) := by
  refine ⟨[.enter t 0], ⟨?_, ?_⟩, ?_⟩
  · simp [Plan.start, Visit.frame, ht.root_eq]
  · simpa [Visit.tree] using ht.liesIn
  · simp [Visit.efforts, Visit.effort]

end Walk

namespace Outing

variable {p : Plan} {t : OpTree Nat} {w : Walk} {xs : List Assignment} {n : Nat}

/-- A visit is one step less to take. -/
theorem Sound.takes_visit (h : Sound p t ⟨w, xs⟩) (hstage : w.stage = .walking)
    (ht : p.arena.Shows t) (fresh : TaskId) (htakes : w.Takes p (n + 1)) :
    (p.visit fresh w).Takes p n := by
  obtain ⟨visits, -, hv, -, hvisited⟩ := h.visited hstage ht fresh
  simp only [Walk.Takes, hstage] at htakes
  obtain ⟨visits', hv', hn⟩ := htakes
  obtain rfl := hv.unique hv'
  generalize p.visit fresh w = w' at hvisited
  cases hvisited with
  | done =>
      simp only [Visit.efforts] at hn
      exact Nat.le_of_lt_succ (by omega)
  | @leaf i depth value rest =>
      simp only [Walk.Takes, hstage]
      simp only [Visit.efforts, Visit.effort, OpTree.effort] at hn
      exact ⟨rest, hv.tail.congr rfl, by omega⟩
  | @tooDeep node depth op l r rest =>
      simp only [Visit.efforts, Visit.effort, OpTree.effort] at hn
      exact Nat.le_of_lt_succ (by omega)
  | @enter node depth op l r rest =>
      simp only [Walk.Takes, hstage]
      simp only [Visit.efforts, Visit.effort, OpTree.effort] at hn
      refine ⟨_, (Plan.visits_unfold hv).congr rfl, ?_⟩
      simp only [Visit.unfold, List.cons_append, List.nil_append, Visit.efforts, Visit.effort]
      omega
  | @leave node depth op l r rest =>
      simp only [Visit.efforts, Visit.effort] at hn
      exact ⟨rest, hv.tail.congr rfl, by omega⟩

theorem Sound.takes_turn (h : Sound p t ⟨w, xs⟩) (hstage : w.stage = .walking)
    (ht : p.arena.Shows t) (fresh : TaskId) (htakes : w.Takes p (n + 1)) :
    (p.proceed fresh w).Takes p n := by
  rw [Plan.proceed_of_walking hstage]
  have hfirst : Sound p t ⟨p.visit fresh w, xs⟩ ∧ (p.visit fresh w).Takes p n :=
    ⟨h.visit hstage ht fresh, h.takes_visit hstage ht fresh htakes⟩
  have hlast := Plan.advance_induction (p := p) (P := fun w => Sound p t ⟨w, xs⟩ ∧ w.Takes p n)
    (fun w hwalking hw => ⟨hw.1.visit hwalking ht fresh,
      hw.1.takes_visit hwalking ht fresh (hw.2.mono (Nat.le_succ n))⟩)
    (2 * p.arena.size) hfirst
  exact hlast.2

end Outing

namespace Walk

variable {p : Plan} {w : Walk} {n : Nat}

/-- The nine steps until the result of the task is there are counted apart. -/
theorem Takes.accepted {node : Nat} {task : Task} (hstage : w.stage = .offering node task)
    (h : w.Takes p n) : 9 ≤ n ∧ w.accepted.Takes p (n - 9) := by
  simp only [Takes, hstage] at h
  have hle : 12 ≤ n := by
    obtain ⟨visits, -, hn⟩ := h
    omega
  rw [Walk.accepted_eq hstage]
  exact ⟨by omega, h.congr rfl (by omega)⟩

theorem Takes.received {node : Nat} {r : TaskResult} (hstage : w.stage = .awaiting node r.id)
    (h : w.Takes p (n + 1)) : (w.received r).Takes p n := by
  simp only [Takes, hstage] at h
  simp only [Walk.received, hstage, if_true]
  cases r.outcome with
  | ok value => exact h.congr rfl (by omega)
  | error cause =>
      obtain ⟨visits, -, hn⟩ := h
      exact Nat.le_of_lt_succ (by omega)

end Walk

end TaskFarm
