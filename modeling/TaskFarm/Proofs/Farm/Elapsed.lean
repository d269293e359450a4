import Mathlib
import TaskFarm.Proofs.Expr.Shape
import TaskFarm.Proofs.Farm.Pace

/-!
# Tasks of one expression never overlap

The stints of a run lie one after the other, so a run takes at least as long as all of them
together.  A run that ends with a value has sent the tasks of all operators, and each of these lasted
for the cost of its operator at least: the run takes at least the sum of the costs.
-/

namespace TaskFarm

open TaskFarm.Expr (Arena Node Operator OpTree)

/-! ## The costs of a tree -/

def Expr.Node.cost (costs : CostTable) : Node → Nat
  | .number _ => 0
  | .binary op _ _ => costs.of op

/-- The costs of all operators of a tree together. -/
def Expr.Arena.totalCost (costs : CostTable) (a : Arena) : Nat :=
  (a.entries.toList.map fun entry => entry.node.cost costs).sum

/-- What the node at an index costs. -/
def Plan.costAt (p : Plan) (i : Nat) : Nat :=
  ((p.arena.node? i).map fun node => node.cost p.costs).getD 0

theorem Plan.sum_costAt_operators {p : Plan} {t : OpTree Nat} (h : t.LiesIn p.arena.entries) :
    (t.operators.map p.costAt).sum = (t.nodes.map fun node => node.cost p.costs).sum := by
  induction t with
  | leaf i v => rfl
  | branch i op l r ihl ihr =>
      have hnode : p.costAt i = p.costs.of op := by
        have hfound : p.arena.node? i = some (.binary op l.label r.label) := h.1
        simp [costAt, hfound, Expr.Node.cost]
      simp [OpTree.operators, OpTree.nodes, ihl h.2.1, ihr h.2.2, hnode, Expr.Node.cost]

theorem Plan.sum_costAt {p : Plan} {t : OpTree Nat} (h : p.arena.Shows t) :
    (t.operators.map p.costAt).sum = p.arena.totalCost p.costs := by
  rw [sum_costAt_operators h.liesIn, ← h.map_node_eq, List.map_map]
  rfl

/-! ## Tasks that a plan asks for -/

theorem Task.error_of_compute {task : Task} {value : Float} (h : task.compute = .ok value) :
    task.error = none := by
  cases herror : task.error with
  | none => rfl
  | some error => simp [compute, herror] at h

/-- A task with the symbol of an operator takes its duration, unless it is known to fail. -/
theorem Task.cost_eq {task : Task} {op : Operator} (hoperation : task.operation = op.text)
    (herror : task.error = none) : task.cost = task.duration := by
  have hoperator : task.operator = .ok op := by
    have hmade := operator_make task.id op task.arg1 task.arg2 task.duration
    rwa [operator, make, ← hoperation] at hmade
  simp [cost, herror, hoperator]

theorem Plan.Asks.cost_eq {p : Plan} {earlier : List Assignment} {x : Assignment}
    (h : p.Asks earlier x) (herror : x.task.error = none) :
    x.task.cost = x.task.duration ∧ x.task.cost = p.costAt x.node := by
  obtain ⟨op, left, right, hnode, -, -, hoperation, hduration, -⟩ := h
  have hcost := Task.cost_eq hoperation herror
  refine ⟨hcost, ?_⟩
  rw [hcost, hduration]
  simp [costAt, hnode, Expr.Node.cost]

theorem Plan.InOrder.asks {p : Plan} {xs : List Assignment} (h : p.InOrder xs) {x : Assignment}
    (hx : x ∈ xs) : ∃ earlier, p.Asks earlier x := by
  obtain ⟨later, earlier, rfl⟩ := List.append_of_mem hx
  exact ⟨earlier, (Outing.inOrder_split h).2⟩

/-! ## Stints one after the other -/

/-- Some events are those of tasks that are out one after the other, each as long as it takes, and
of a last task that may still be out. -/
structure OneByOne (events : List (Nat × Event)) (stints : List Stint)
    (pending : Option (Nat × Task)) : Prop where
  events_eq : events = stints.flatMap Stint.events ++ pendingEvents pending
  apart : stints.Pairwise fun s s' => s.consumed ≤ s'.sent
  last : ∀ s ∈ stints, ∀ sent task, pending = some (sent, task) → s.consumed ≤ sent
  /-- A task lasts for its duration, unless it is known to fail when it is made. -/
  lasts : ∀ s ∈ stints, s.task.error = none → s.sent + s.task.duration ≤ s.consumed

section Stints

variable {stints : List Stint} {pending : Option (Nat × Task)} {start finish : Nat}

/-- If the events are in order, each task is out after the result of the one before was taken. -/
theorem apart_of_sorted
    (h : (stints.flatMap Stint.events ++ pendingEvents pending).Pairwise fun e e' => e.1 ≤ e'.1) :
    (stints.Pairwise fun s s' => s.consumed ≤ s'.sent) ∧
      ∀ s ∈ stints, ∀ sent task, pending = some (sent, task) → s.consumed ≤ sent := by
  obtain ⟨hstints, -, hlast⟩ := List.pairwise_append.mp h
  refine ⟨(List.pairwise_flatMap.mp hstints).2.imp fun hall => ?_, ?_⟩
  · exact hall _ (List.mem_cons_of_mem _ (List.mem_singleton_self _)) _ List.mem_cons_self
  · rintro s hs sent task rfl
    exact hlast _ (List.mem_flatMap.mpr
      ⟨s, hs, List.mem_cons_of_mem _ (List.mem_singleton_self _)⟩) _ (List.mem_singleton_self _)

/-- Whoever waits for stints one after the other waits for all of them together. -/
theorem add_sum_cost_le (hle : start ≤ finish) (hstart : ∀ s ∈ stints, start ≤ s.sent)
    (hfinish : ∀ s ∈ stints, s.consumed ≤ finish)
    (hapart : stints.Pairwise fun s s' => s.consumed ≤ s'.sent)
    (hlasts : ∀ s ∈ stints, s.sent + s.task.cost ≤ s.consumed) :
    start + (stints.map fun s => s.task.cost).sum ≤ finish := by
  induction stints generalizing start with
  | nil => simpa using hle
  | cons s rest ih =>
      obtain ⟨hnext, hrest⟩ := List.pairwise_cons.mp hapart
      have hfirst : start + s.task.cost ≤ s.consumed :=
        Nat.le_trans (Nat.add_le_add_right (hstart s List.mem_cons_self) _)
          (hlasts s List.mem_cons_self)
      have hlater : s.consumed + (rest.map fun s => s.task.cost).sum ≤ finish :=
        ih (hfinish s List.mem_cons_self) hnext
          (fun s' hs' => hfinish s' (List.mem_cons_of_mem _ hs')) hrest
          fun s' hs' => hlasts s' (List.mem_cons_of_mem _ hs')
      rw [List.map_cons, List.sum_cons, ← Nat.add_assoc]
      exact Nat.le_trans (Nat.add_le_add_right hfirst _) hlater

end Stints

namespace Run.Paced

variable {run : Run} {events : List (Nat × Event)} {t : OpTree Nat} {xs : List Assignment}
  {stints : List Stint} {pending : Option (Nat × Task)}

/-- The task of a stint was asked for. -/
theorem asks (h : run.Paced events t xs stints pending) {s : Stint} (hs : s ∈ stints) :
    ∃ x earlier, x.task = s.task ∧ run.plan.Asks earlier x := by
  have hmem : s.task ∈ xs.reverse.map Assignment.task := by
    rw [h.tasks_eq]
    exact List.mem_append_left _ (List.mem_map_of_mem hs)
  obtain ⟨x, hx, htask⟩ := List.mem_map.mp hmem
  obtain ⟨earlier, hasks⟩ := h.sound.inOrder.asks (List.mem_reverse.mp hx)
  exact ⟨x, earlier, htask, hasks⟩

theorem oneByOne (h : run.Paced events t xs stints pending)
    (hsorted : events.Pairwise fun e e' => e.1 ≤ e'.1) : OneByOne events stints pending := by
  obtain ⟨hapart, hlast⟩ := apart_of_sorted (h.events_eq ▸ hsorted)
  refine ⟨h.events_eq, hapart, hlast, fun s hs herror => ?_⟩
  obtain ⟨x, earlier, htask, hasks⟩ := h.asks hs
  rw [← htask, ← (hasks.cost_eq (htask ▸ herror)).1, htask]
  exact h.lasts s hs

/-- A run that has found a value has sent the tasks of all operators. -/
theorem sum_cost (h : run.Paced events t xs stints pending) {value : Float}
    (hstage : run.walk.stage = .finished (.ok value)) :
    (stints.map fun s => s.task.cost).sum = run.plan.arena.totalCost run.plan.costs := by
  have hpaces := h.paces
  rw [hstage] at hpaces
  obtain ⟨rfl, hall⟩ := hpaces
  have htasks : xs.reverse.map Assignment.task = stints.map Stint.task := by
    simpa using h.tasks_eq
  have hnodes : Assignment.nodes xs = t.operators := by
    have hstands := h.sound.stands
    simp only [Outing.Stands, hstage] at hstands
    exact hstands.2.1
  have hcost : ∀ x ∈ xs.reverse, x.task.cost = run.plan.costAt x.node := by
    intro x hx
    have hmem : x.task ∈ stints.map Stint.task := htasks ▸ List.mem_map_of_mem hx
    obtain ⟨s, hs, htask⟩ := List.mem_map.mp hmem
    obtain ⟨found, hcompute⟩ := hall s hs
    obtain ⟨earlier, hasks⟩ := h.sound.inOrder.asks (List.mem_reverse.mp hx)
    exact (hasks.cost_eq (Task.error_of_compute (htask ▸ hcompute))).2
  calc (stints.map fun s => s.task.cost).sum
      = ((stints.map Stint.task).map Task.cost).sum := by rw [List.map_map]; rfl
    _ = (xs.reverse.map fun x => x.task.cost).sum := by rw [← htasks, List.map_map]; rfl
    _ = (xs.reverse.map fun x => run.plan.costAt x.node).sum := by
        rw [List.map_congr_left hcost]
    _ = (t.operators.map run.plan.costAt).sum := by
        rw [← hnodes, Assignment.nodes, List.map_map]
        rfl
    _ = run.plan.arena.totalCost run.plan.costs := Plan.sum_costAt h.shows

end Run.Paced

namespace Farm

variable {naming : Naming} {settings : Settings} {books : Bookkeeper} {f f' : Farm}
  {past : List Mark} {r : RunId} {run : Run}

/-- A run keeps its plan as long as the farm goes on. -/
theorem plan_play? {moves : List Move} (hplay : f.play? moves = some f')
    (hrun : f.runs[r]? = some run) : ∃ run', f'.runs[r]? = some run' ∧ run'.plan = run.plan := by
  induction moves generalizing f run with
  | nil =>
      rw [← Option.some.inj hplay]
      exact ⟨run, hrun, rfl⟩
  | cons m rest ih =>
      obtain ⟨next, hmove, hrest⟩ := Option.bind_eq_some_iff.mp hplay
      have hstrides := strides_move? hmove r
      rw [hrun] at hstrides
      obtain ⟨run₁, hrun₁⟩ := hstrides.exists_some
      rw [hrun₁] at hstrides
      obtain ⟨run', hrun', hplan⟩ := ih hrest hrun₁
      exact ⟨run', hrun', hplan.trans hstrides.plan_eq⟩

/-- The run of an expression whose events are noted from its beginning on. -/
theorem Paced.begun (h : f.Paced past) (hids : Function.Injective f.naming.task) {source : String}
    {f₁ f₂ : Farm} (haccept : f.accept source = (.ok r, f₁)) {after : List Move}
    (hafter : f₁.play? after = some f₂) :
    ∃ arena run t xs stints pending, Expr.parse source = .ok arena ∧ f₂.runs[r]? = some run ∧
      run.plan = ⟨arena, f.settings.costs, f.settings.maxDepth⟩ ∧
      run.Paced (eventsOf r (f₁.timeline after)) t xs stints pending := by
  obtain ⟨arena, hparse, hnew, hbegun, -, -⟩ := accept_ok haccept
  have hnone : f.runs[r]? = none := hnew ▸ Array.getElem?_eq_none (Nat.le_refl _)
  have hmove : f.move? (.accept source) = some f₁ := by
    rw [move?, haccept]
  have hnext : f₁.Paced past := by
    have hunmarked : f.marks (.accept source) = [] := rfl
    have hmoved := h.move hids hmove
    rwa [hunmarked, List.append_nil] at hmoved
  have hend := hnext.play (naming_move? hmove ▸ hids) hafter
  obtain ⟨run, hrun, hplan⟩ := plan_play? hafter hbegun
  obtain ⟨t, xs, stints, pending, hpaced⟩ := hend.runs r run hrun
  rw [eventsOf_append, h.fresh r hnone, List.nil_append] at hpaced
  exact ⟨arena, run, t, xs, stints, pending, hparse, hrun, hplan, hpaced⟩

/-- What a run costs passes by before it is over. -/
theorem totalCost_le_elapsed {moves : List Move} {t : OpTree Nat} {xs : List Assignment}
    {stints : List Stint} {pending : Option (Nat × Task)} (hplay : f.play? moves = some f')
    (h : run.Paced (eventsOf r (f.timeline moves)) t xs stints pending) {value : Float}
    (hstage : run.walk.stage = .finished (.ok value)) :
    f.now + run.plan.arena.totalCost run.plan.costs ≤ f'.now := by
  have hwithin : ∀ e ∈ stints.flatMap Stint.events, f.now ≤ e.1 ∧ e.1 ≤ f'.now := by
    intro e he
    have hmem : e ∈ eventsOf r (f.timeline moves) := by
      rw [h.events_eq]
      exact List.mem_append_left _ he
    exact timeline_within hplay (mem_of_mem_eventsOf hmem)
  rw [← h.sum_cost hstage]
  refine add_sum_cost_le (advances_play? hplay).now_le ?_ ?_
    (h.oneByOne (eventsOf_sorted (timeline_sorted hplay) r)).apart h.lasts
  · intro s hs
    exact (hwithin (s.sent, .sends s.task)
      (List.mem_flatMap.mpr ⟨s, hs, List.mem_cons_self⟩)).1
  · intro s hs
    exact (hwithin (s.consumed, .consumes s.task.id)
      (List.mem_flatMap.mpr ⟨s, hs, List.mem_cons_of_mem _ (List.mem_singleton_self _)⟩)).2

/-- However the moves of a farm are mixed, a run has one task out at a time, each for its duration
at least unless it is known to fail when it is made; and a run that ends with a value takes at least
the costs of all operators of its expression together.  No two tasks may get the same name. -/
theorem play?_spacesTasks (hids : Function.Injective naming.task) {before after : List Move}
    {f₀ f₁ f₂ : Farm} {source : String}
    (hbefore : (openedWith naming settings books).play? before = some f₀)
    (haccept : f₀.accept source = (.ok r, f₁)) (hafter : f₁.play? after = some f₂) :
    ∃ arena stints pending, Expr.parse source = .ok arena ∧
      OneByOne (eventsOf r (f₁.timeline after)) stints pending ∧
      ∀ value, f₂.outcome? r = some (.ok value) →
        f₁.now + arena.totalCost settings.costs ≤ f₂.now := by
  have hadvances := advances_play? hbefore
  have hpaced₀ := (paced_opened naming settings books).play hids hbefore
  have hnaming : f₀.naming = naming := hadvances.naming_eq
  rw [← hnaming] at hids
  obtain ⟨arena, run, t, xs, stints, pending, hparse, hrun, hplan, hpaced⟩ :=
    hpaced₀.begun hids haccept hafter
  refine ⟨arena, stints, pending, hparse,
    hpaced.oneByOne (eventsOf_sorted (timeline_sorted hafter) r), fun value hended => ?_⟩
  have hprogress : run.progress = .ended (.ok value) := by
    simp only [outcome?, hrun, Option.bind_some] at hended
    unfold Run.outcome? at hended
    split at hended
    · next outcome hprogress =>
      rw [hprogress, Option.some.inj hended]
    · cases hended
  have hends := hpaced.ended (by simp [hprogress])
  rw [hprogress] at hends
  obtain ⟨found, hstage⟩ := hends
  have helapsed := totalCost_le_elapsed hafter hpaced hstage
  have hsettings : f₀.settings = settings := hadvances.settings_eq
  rw [hplan, hsettings] at helapsed
  exact helapsed

/-- A sum with a product as its right operand shares the worker with another product. -/
theorem play?_spacesTasks_shared :
    ∃ after f₀ f₁ f₂ value,
      (openedWith .counting .standard .regular).play?
        [.accept "4*5", .hire, .walk 0, .walk 0, .relay 0, .wait 3] = some f₀ ∧
      f₀.accept "1+2*3" = (.ok 1, f₁) ∧ f₁.play? after = some f₂ ∧
      f₁.now = 3 ∧ f₂.now = 33 ∧ f₂.outcome? 1 = some (.ok value) ∧
      ∃ arena stints pending, Expr.parse "1+2*3" = .ok arena ∧
        OneByOne (eventsOf 1 (f₁.timeline after)) stints pending ∧
        ∀ value, f₂.outcome? 1 = some (.ok value) →
          f₁.now + arena.totalCost Settings.standard.costs ≤ f₂.now := by
  refine ⟨[.walk 1, .walk 1, .relay 1, .relay 1, .work 0, .work 0, .relay 0, .wait 13, .work 0,
    .walk 1, .walk 1, .walk 1, .relay 1, .relay 1, .work 0, .work 0, .wait 23, .work 0, .work 0,
    .work 0, .wait 33, .work 0, .walk 1, .walk 1, .walk 1], ?f₀, ?f₁, ?f₂, ?value, ?before,
    ?accepted, ?after, ?began, ?finished, ?ended,
    play?_spacesTasks Naming.counting_task ?before ?accepted ?after⟩
  case before => exact rfl
  case accepted => exact rfl
  case after => exact rfl
  case began => exact rfl
  case finished => exact rfl
  case ended => exact rfl

end Farm

end TaskFarm
