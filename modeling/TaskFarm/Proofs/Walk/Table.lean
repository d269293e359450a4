import TaskFarm.Proofs.Expr.Kinship
import TaskFarm.Proofs.Walk.Log

/-!
# The table of a walk

What the log of a walk says of its table, after any steps and in any run: the table has a value for
an operand whenever one is needed, each value is written once, and a first run skips nothing.  The
log also bounds what a run takes: it comes by each number once and by each operator twice.
-/

namespace TaskFarm

open TaskFarm.Expr (Arena Operator OpTree Token)

/-- A node is a number, or an operator that the table has a value for. -/
def Plan.HasValue (p : Plan) (w : Walk) (i : Nat) : Prop :=
  (∃ value, p.arena.node? i = some (.number value)) ∨
    p.arena.IsOperator i ∧ ∃ value, w.valueAt i = some value

theorem Plan.hasValue_of_look {p : Plan} {w : Walk} {part : OpTree Nat} {value : Float}
    (hpart : part.LiesIn p.arena.entries) (hvalue : part.look w.valueAt = some value) :
    p.HasValue w part.label := by
  cases part with
  | leaf i v => exact .inl ⟨v, hpart⟩
  | branch i op l r => exact .inr ⟨⟨op, l.label, r.label, hpart.1⟩, value, hvalue⟩

namespace Logged

variable {p : Plan} {t : OpTree Nat} {l l' : Logged} {s : Step}

/-- The next visit passes a node over because it has a value. -/
def Skips (l : Logged) (i : Nat) : Prop :=
  l.walk.stage = .walking ∧ (l.walk.valueAt i).isSome ∧
    ∃ frame below, l.walk.frames = frame :: below ∧ frame.node = i

/-! ## Steps -/

/-- A step leaves the table as it is, unless it reads the value that the walk waits for. -/
theorem resolved_of_step (hl : l.step? p s = some l') :
    l'.walk.resolved = l.walk.resolved ∨ ∃ node id value, l.walk.stage = .awaiting node id ∧
      l'.walk.resolved = l.walk.resolved.setIfInBounds node (some value) := by
  unfold step? at hl
  split at hl
  · cases hl
    exact .inl Plan.visit_resolved
  · next hstage =>
    cases hl
    exact .inl (by rw [moved, Walk.accepted_eq hstage])
  · next hstage =>
    cases hl
    exact .inl (by rw [moved, Walk.refused_eq hstage])
  · next r node id hstage =>
    cases hl
    by_cases hmatch : r.id = id
    · cases hout : r.outcome with
      | ok value =>
          refine .inr ⟨node, id, value, hstage, ?_⟩
          rw [read, if_pos hmatch, moved, Walk.received_value hstage hmatch hout]
      | error cause =>
          exact .inl (by rw [read, if_pos hmatch, moved, Walk.received_failure hstage hmatch hout])
    · exact .inl (by rw [read, if_neg hmatch, Walk.received_stale hstage hmatch])
  · next hstage =>
    cases hl
    exact .inl (by rw [moved, Walk.hungUp_eq hstage])
  · cases hl
    exact .inl rfl
  · cases hl

/-- A value that has been found stays. -/
theorem Sound.valueAt_step (h : l.Sound p t) (hl : l.step? p s = some l') {i : Nat} {value : Float}
    (hvalue : l.walk.valueAt i = some value) : l'.walk.valueAt i = some value := by
  rcases resolved_of_step hl with hsame | ⟨node, id, found, hstage, hset⟩
  · rw [Walk.valueAt, hsame]
    exact hvalue
  · obtain ⟨visits, hheads⟩ := h.stands.heads (congrArg Stage.due? hstage)
    have hnone := h.valueAt_eq_none (hheads.unwritten node List.mem_cons_self)
    have hne : node ≠ i := by
      rintro rfl
      cases hnone.symm.trans hvalue
    rw [Walk.valueAt, hset, Array.getElem?_setIfInBounds_ne hne]
    exact hvalue

/-- Only a new run inherits anything. -/
theorem inherited_step (hs : s ≠ .again) (hl : l.step? p s = some l') :
    l'.inherited = l.inherited := by
  unfold step? at hl
  split at hl
  · cases hl
    rfl
  · cases hl
    rfl
  · cases hl
    rfl
  · cases hl
    unfold read
    split <;> rfl
  · cases hl
    rfl
  · exact absurd rfl hs
  · cases hl

theorem inherited_steps {steps : List Step} (hagain : .again ∉ steps)
    (hl : l.steps? p steps = some l') : l'.inherited = l.inherited := by
  induction steps generalizing l with
  | nil => rw [Option.some.inj hl]
  | cons s rest ih =>
      obtain ⟨next, hstep, hrest⟩ := Option.bind_eq_some_iff.mp hl
      rw [List.mem_cons, not_or] at hagain
      rw [ih hagain.2 hrest, inherited_step (Ne.symm hagain.1) hstep]

/-! ## Turns -/

/-- The visits of a turn are steps, one after the other.  If the walk still goes on at the end, it
has taken a frame with each of them. -/
theorem exists_steps_advance (p : Plan) (fresh : TaskId) (fuel : Nat) (l : Logged) :
    ∃ count l', l.steps? p (List.replicate count (.visit fresh)) = some l' ∧
      l'.walk = p.advance fresh fuel l.walk ∧
      (l'.walk.stage = .walking → l'.popped.length = l.popped.length + fuel) := by
  induction fuel generalizing l with
  | zero => exact ⟨0, l, rfl, rfl, fun _ => rfl⟩
  | succ fuel ih =>
      by_cases hstage : l.walk.stage = .walking
      · obtain ⟨count, l', hsteps, hwalk, hpopped⟩ := ih (l.visited (p.visit fresh l.walk))
        have hstep : l.step? p (.visit fresh) = some (l.visited (p.visit fresh l.walk)) := by
          simp [step?, hstage]
        refine ⟨count + 1, l', ?_, ?_, fun hwalking => ?_⟩
        · rw [List.replicate_succ, steps?, hstep]
          exact hsteps
        · rw [hwalk]
          simp only [Plan.advance, hstage, visited]
        · have hframes : l.walk.frames ≠ [] := by
            intro hnil
            have hstill : (p.visit fresh l.walk).stage ≠ .walking := Plan.visit_of_frames_nil hnil
            have hsame : l'.walk = p.visit fresh l.walk :=
              hwalk.trans (Plan.advance_of_ne_walking hstill fuel)
            exact hstill (hsame ▸ hwalking)
          obtain ⟨frame, below, hcons⟩ := List.exists_cons_of_ne_nil hframes
          rw [hpopped hwalking]
          simp only [visited, hcons, List.take_succ_cons, List.take_zero, List.length_append,
            List.length_singleton]
          omega
      · refine ⟨0, l, rfl, (Plan.advance_of_ne_walking hstage _).symm, fun hwalking => ?_⟩
        exact absurd hwalking hstage

theorem Stands.ne_stuck (h : l.Stands p t) : l.walk.stage ≠ .stuck := by
  intro hstuck
  cases h with
  | underWay hdue => simp [hstuck, Stage.due?] at hdue
  | finished hstage => cases hstuck.symm.trans hstage

/-- A run comes by no more than its whole tour. -/
theorem Stands.popped_le (h : l.Stands p t) : l.popped.length ≤ (t.tour 0).length := by
  cases h with
  | underWay _ h => exact Nat.le_of_add_right_le h.popped_le
  | finished _ hpopped => exact hpopped

theorem Stands.moves_le (h : l.Stands p t) :
    l.moves ≤ (t.tour 0).length + 2 * t.operators.length + 1 := by
  cases h with
  | underWay _ h =>
      have hmoves := h.moves_le
      omega
  | finished _ _ hmoves => exact hmoves

theorem length_tour_eq (ht : p.arena.Shows t) :
    (t.tour 0).length = p.arena.size + p.arena.operatorCount := by
  rw [OpTree.length_tour, ht.size_eq, ht.operatorCount_eq]

/-- A turn is long enough for all that a run has still to visit. -/
theorem Sound.proceed_halts (h : l.Sound p t) (ht : p.arena.Shows t) (fresh : TaskId) :
    (p.proceed fresh l.walk).stage ≠ .walking := by
  intro hwalking
  -- a turn that has not come to an end has taken more frames than a whole run may
  obtain ⟨count, l', hsteps, hwalk, hpopped⟩ :=
    exists_steps_advance p fresh (2 * p.arena.size + 1) l
  have hle := (h.steps ht hsteps).stands.popped_le
  have hcount : p.arena.operatorCount ≤ p.arena.size := by
    rw [ht.operatorCount_eq, ht.size_eq]
    exact t.operators_sublist_postOrder.length_le
  rw [hpopped (hwalk ▸ hwalking), length_tour_eq ht] at hle
  omega

/-! ## What is found on the stack -/

/-- The operands of an operator have values when they have been visited. -/
theorem Sound.operands (h : l.Sound p t) (ht : p.arena.Shows t) (hstage : l.walk.stage = .walking)
    {frame : Frame} {below : List Frame} (hframes : l.walk.frames = frame :: below)
    (hvisited : frame.visited = true) :
    ∃ op left right, p.arena.node? frame.node = some (.binary op left right) ∧
      p.HasValue l.walk left ∧ p.HasValue l.walk right := by
  obtain ⟨visits, hheads⟩ := h.stands.heads (congrArg Stage.due? hstage)
  obtain ⟨v, rest, rfl, rfl⟩ := hheads.stack.exists_cons hframes
  cases v with
  | enter part depth => cases hvisited
  | leave node op left right depth =>
      obtain ⟨hnode, hl, hr⟩ := hheads.stack.liesIn _ List.mem_cons_self
      obtain ⟨x, y, hx, hy⟩ := hheads.exists_operands h ht
      exact ⟨op, left.label, right.label, hnode, Plan.hasValue_of_look hl hx,
        Plan.hasValue_of_look hr hy⟩

/-- The root has a value when nothing is left to visit. -/
theorem Sound.root (h : l.Sound p t) (ht : p.arena.Shows t) (hstage : l.walk.stage = .walking)
    (hframes : l.walk.frames = []) : p.HasValue l.walk p.arena.root := by
  obtain ⟨visits, hheads⟩ := h.stands.heads (congrArg Stage.due? hstage)
  obtain rfl : visits = [] := List.map_eq_nil_iff.mp (hheads.stack.frames_eq.symm.trans hframes)
  obtain ⟨value, hvalue⟩ := hheads.exists_root h
  rw [← ht.root_eq]
  exact Plan.hasValue_of_look ht.liesIn hvalue

/-- Nodes with values are operators. -/
theorem Sound.isOperator (h : l.Sound p t) (ht : p.arena.Shows t) {i : Nat} (hi : i ∈ l.written) :
    p.arena.IsOperator i :=
  ht.mem_operators_iff.mp (h.initial.subset (List.mem_reverse.mpr hi))

theorem Sound.inherited_of_skips (h : l.Sound p t) (ht : p.arena.Shows t) {i : Nat}
    (hskips : l.Skips i) : i ∈ l.inherited := by
  obtain ⟨hstage, hvalue, frame, below, hframes, rfl⟩ := hskips
  have hwritten := (h.valued_iff _).mp hvalue
  obtain ⟨visits, hheads⟩ := h.stands.heads (congrArg Stage.due? hstage)
  obtain ⟨v, rest, rfl, rfl⟩ := hheads.stack.exists_cons hframes
  cases v with
  | leave node op left right depth =>
      exact absurd hwritten (hheads.unwritten node List.mem_cons_self)
  | enter part depth =>
      cases part with
      | leaf i value =>
          have hnode : p.arena.node? i = some (.number value) :=
            hheads.stack.liesIn _ List.mem_cons_self
          obtain ⟨op, left, right, hbinary⟩ := h.isOperator ht hwritten
          cases hnode.symm.trans hbinary
      | branch node op left right => exact (hheads.skip ht hwritten).1

/-- How a walk keeps its table. -/
structure KeepsTable (p : Plan) (l : Logged) : Prop where
  /-- The walk never lacks the value of an operand. -/
  notStuck : l.walk.stage ≠ .stuck
  /-- When a frame comes up whose operands have been visited, both of them have values. -/
  operands : ∀ frame below, l.walk.stage = .walking → l.walk.frames = frame :: below →
    frame.visited = true →
      ∃ op left right, p.arena.node? frame.node = some (.binary op left right) ∧
        p.HasValue l.walk left ∧ p.HasValue l.walk right
  /-- When nothing is left on the stack, the root has a value. -/
  root : l.walk.stage = .walking → l.walk.frames = [] → p.HasValue l.walk p.arena.root
  /-- Values are written for operators, once for each of them, and the table has no others. -/
  operators : ∀ i ∈ l.written, p.arena.IsOperator i
  once : l.written.Nodup
  size_eq : l.walk.resolved.size = p.arena.size
  valued_iff : ∀ i, (l.walk.valueAt i).isSome ↔ i ∈ l.written
  /-- No step changes a value that has been found. -/
  stays : ∀ s l', l.step? p s = some l' → ∀ i value, l.walk.valueAt i = some value →
    l'.walk.valueAt i = some value
  /-- What is skipped had its value when the run began. -/
  skips : ∀ i, l.Skips i → i ∈ l.inherited
  /-- A run takes each number from its stack once, and each operator twice. -/
  popped_le : l.popped.length ≤ p.arena.size + p.arena.operatorCount
  /-- Besides these visits and the last look at the stack, a run takes two steps for each operator,
  unless it reads stale results. -/
  moves_le : l.moves ≤ p.arena.size + 3 * p.arena.operatorCount + 1
  /-- A turn is a series of visits after which the walk does not go on by itself. -/
  turns : ∀ fresh, (p.proceed fresh l.walk).stage ≠ .walking ∧
    ∃ count l', l.steps? p (List.replicate count (.visit fresh)) = some l' ∧
      l'.walk = p.proceed fresh l.walk

theorem Sound.keepsTable (h : l.Sound p t) (ht : p.arena.Shows t) : l.KeepsTable p where
  notStuck := h.stands.ne_stuck
  operands _ _ hstage hframes hvisited := h.operands ht hstage hframes hvisited
  root := h.root ht
  operators _ hi := h.isOperator ht hi
  once := by
    rw [← List.nodup_reverse]
    exact ht.operators_nodup.sublist h.initial.sublist
  size_eq := h.size_eq
  valued_iff := h.valued_iff
  stays _ _ hl _ _ hvalue := h.valueAt_step hl hvalue
  skips _ hskips := h.inherited_of_skips ht hskips
  popped_le := by
    rw [← length_tour_eq ht]
    exact h.stands.popped_le
  moves_le := by
    have hmoves := h.stands.moves_le
    rw [length_tour_eq ht, ← ht.operatorCount_eq] at hmoves
    omega
  turns fresh := by
    obtain ⟨count, l', hsteps, hwalk, -⟩ :=
      exists_steps_advance p fresh (2 * p.arena.size + 1) l
    exact ⟨h.proceed_halts ht fresh, count, l', hsteps, hwalk⟩

end Logged

/-- However the surroundings of a walk behave and however often it is run, it keeps its table, and
its first run skips nothing. -/
theorem Plan.steps?_keepsTable {tokens : List Token} {a : Arena}
    (h : Arena.ofPostOrder tokens = .ok a) (costs : CostTable) (maxDepth : Nat)
    {steps : List Step} {l : Logged}
    (hl : (Logged.start ⟨a, costs, maxDepth⟩).steps? ⟨a, costs, maxDepth⟩ steps = some l) :
    l.KeepsTable ⟨a, costs, maxDepth⟩ ∧ (.again ∉ steps → ∀ i, ¬l.Skips i) := by
  obtain ⟨t, ht⟩ := Arena.exists_shows_of_ofPostOrder h
  have hsound := (Logged.sound_start (p := ⟨a, costs, maxDepth⟩) ht).steps ht hl
  refine ⟨hsound.keepsTable ht, fun hagain i hskips => ?_⟩
  have hinherited : i ∈ l.inherited := hsound.inherited_of_skips ht hskips
  rw [Logged.inherited_steps hagain hl] at hinherited
  cases hinherited

/-- The walk of `1 2 + 3 *` drops a stale result and takes as many frames and steps as it may.  A new
run skips the root. -/
theorem Plan.steps?_keepsTable_again :
    ∃ tokens a, Arena.ofPostOrder tokens = .ok a ∧ tokens.length = 5 ∧ a.operatorCount = 2 ∧
      ∃ steps l l',
        (Logged.start ⟨a, .standard, 2⟩).steps? ⟨a, .standard, 2⟩ steps = some l ∧
        (l.popped.length = 7 ∧ l.moves = 12 ∧ l.written = [4, 2]) ∧
        (l.KeepsTable ⟨a, .standard, 2⟩ ∧ ∀ i, ¬l.Skips i) ∧
        (Logged.start ⟨a, .standard, 2⟩).steps? ⟨a, .standard, 2⟩ (steps ++ [.again]) = some l' ∧
        l'.Skips 4 ∧ l'.KeepsTable ⟨a, .standard, 2⟩ := by
  have htokens : Arena.ofPostOrder
      [⟨.numeral "1", ⟨0, 1⟩⟩, ⟨.numeral "2", ⟨2, 3⟩⟩, ⟨.operator .add, ⟨1, 2⟩⟩,
        ⟨.numeral "3", ⟨4, 5⟩⟩, ⟨.operator .mul, ⟨3, 4⟩⟩] = .ok _ := rfl
  let steps : List Step :=
    List.replicate 5 (.visit ⟨0⟩) ++
      [.taken, .result (.success ⟨7⟩ 5.0), .result (.success ⟨0⟩ 3.0)] ++
      List.replicate 2 (.visit ⟨1⟩) ++ [.taken, .result (.success ⟨1⟩ 9.0), .visit ⟨2⟩]
  have hfirst := @Plan.steps?_keepsTable _ _ htokens .standard 2 steps _ rfl
  have hagain := @Plan.steps?_keepsTable _ _ htokens .standard 2 (steps ++ [.again]) _ rfl
  refine ⟨_, _, htokens, rfl, rfl, steps, _, _, rfl, ⟨rfl, rfl, rfl⟩, ⟨hfirst.1, ?_⟩, rfl, ?_,
    hagain.1⟩
  · exact hfirst.2 (by simp [steps])
  · exact ⟨rfl, rfl, _, _, rfl, rfl⟩

end TaskFarm
