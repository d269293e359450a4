import TaskFarm.Proofs.Walk.Outing

/-!
# A walk follows the post-order of its tree

Every signal keeps the invariant of outings, whatever the surroundings do.  The main statement
reads off what this means: the tasks that are handed out are those of a prefix of the operators in
post-order, each of them asks for what the earlier ones lead to, and only after all of these were
answered with values; nothing is handed out after an error; and a value comes out only when every
operator has been handed out.
-/

namespace TaskFarm

open TaskFarm.Expr (Arena Node Operator OpTree Token)
open Assignment (nodes valueIn AllAnswered)

theorem Walk.valueAt_resolve {w w' : Walk} {node : Nat} {value : Float}
    (hresolved : w'.resolved = w.resolved.setIfInBounds node (some value))
    (hlt : node < w.resolved.size) (i : Nat) :
    w'.valueAt i = if node = i then some value else w.valueAt i := by
  unfold Walk.valueAt
  rw [hresolved, Array.getElem?_setIfInBounds]
  by_cases hi : node = i
  · simp [hi, hi ▸ hlt]
  · simp [hi]

namespace Outing

variable {p : Plan} {t : OpTree Nat} {w w' : Walk} {xs : List Assignment}

/-- A step that leaves the table alone keeps the invariant if it keeps that of the stage. -/
theorem Sound.congr (h : Sound p t ⟨w, xs⟩) (hresolved : w'.resolved = w.resolved)
    (hstands : Stands p t ⟨w', xs⟩) : Sound p t ⟨w', xs⟩ := by
  refine ⟨?_, ?_, h.inOrder, hstands⟩
  · rw [hresolved]
    exact h.size_eq
  · intro node
    rw [Walk.valueAt, hresolved]
    exact h.valueAt_eq node

/-! ## Visits -/

/-- A walk that stands as the invariant says is never stuck. -/
theorem Sound.visited (h : Sound p t ⟨w, xs⟩) (hstage : w.stage = .walking)
    (ht : p.arena.Shows t) (fresh : TaskId) :
    ∃ visits, AllAnswered xs ∧ w.Visits p.arena visits ∧
      nodes xs ++ visits.flatMap Visit.operators = t.operators ∧
        p.Visited t fresh w visits (p.visit fresh w) := by
  have hstands := h.stands
  simp only [Stands, hstage] at hstands
  obtain ⟨hall, visits, hv, hops⟩ := hstands
  rw [List.append_nil] at hops
  refine ⟨visits, hall, hv, hops, ?_⟩
  match visits, hv, hops with
  | [], hv, hops =>
      have hvalue : ∃ value, t.look w.valueAt = some value := by
        cases t with
        | leaf i v => exact ⟨v, rfl⟩
        | branch i op l r =>
            have hnodes : nodes xs = (OpTree.branch i op l r).operators := by simpa using hops
            have hi : i ∈ nodes xs := by simp [hnodes, OpTree.operators]
            obtain ⟨value, hfound⟩ := Assignment.exists_valueIn hall hi
            exact ⟨value, (h.valueAt_eq i).trans hfound⟩
      obtain ⟨value, hvalue⟩ := hvalue
      rw [Plan.visit_done hv.frames_eq ht hvalue]
      exact .done hvalue
  | .enter (.leaf i v) depth :: rest, hv, hops =>
      rw [Plan.visit_leaf hv]
      exact .leaf
  | .enter (.branch node op l r) depth :: rest, hv, hops =>
      have hnone : w.valueAt node = none :=
        h.valueAt_eq_none ht hops (by simp [Visit.operators, OpTree.operators])
      by_cases hdepth : p.maxDepth ≤ depth
      · rw [Plan.visit_tooDeep hv hnone hdepth]
        exact .tooDeep hdepth
      · rw [Plan.visit_enter hv hnone (Nat.not_le.mp hdepth)]
        exact .enter (Nat.not_le.mp hdepth)
  | .leave node op l r depth :: rest, hv, hops =>
      have hnone : w.valueAt node = none :=
        h.valueAt_eq_none ht hops (by simp [Visit.operators])
      have hnext : nodes xs ++ node :: rest.flatMap Visit.operators = t.operators := hops
      obtain ⟨hnode, hl, hr⟩ := hv.liesIn _ List.mem_cons_self
      obtain ⟨hltL, hltR⟩ := ht.child_lt hnode
      obtain ⟨x, hx⟩ := h.look_operand ht hall hnext hl hltL
      obtain ⟨y, hy⟩ := h.look_operand ht hall hnext hr hltR
      rw [Plan.visit_leave hv hnone hx hy]
      exact .leave hx hy

theorem Sound.visit (h : Sound p t ⟨w, xs⟩) (hstage : w.stage = .walking)
    (ht : p.arena.Shows t) (fresh : TaskId) : Sound p t ⟨p.visit fresh w, xs⟩ := by
  obtain ⟨visits, hall, hv, hops, hvisited⟩ := h.visited hstage ht fresh
  generalize p.visit fresh w = w' at hvisited
  cases hvisited with
  | done hvalue =>
      refine h.congr rfl ⟨hall, by simpa using hops, ?_⟩
      rw [← ht.root_eq]
      exact (h.operandIn_eq ht.liesIn).trans hvalue
  | @leaf i depth value rest =>
      refine h.congr rfl ?_
      have hlead : Leads p t ⟨{ w with frames := rest.map Visit.frame }, xs⟩ [] :=
        ⟨rest, hv.tail, by simpa [Visit.operators, OpTree.operators] using hops⟩
      simpa [Stands, hstage] using And.intro hall hlead
  | tooDeep hdepth =>
      refine h.congr rfl ⟨hops ▸ List.prefix_append _ _, ?_⟩
      intro x hx cause hcause
      obtain ⟨value, hvalue⟩ := hall x hx
      cases hcause.symm.trans hvalue
  | @enter node depth op l r rest hdepth =>
      refine h.congr rfl ?_
      have hlead : Leads p t ⟨{ w with
          frames := (Visit.unfold node op l r depth ++ rest).map Visit.frame }, xs⟩ [] :=
        ⟨_, Plan.visits_unfold hv, by
          simpa [Visit.unfold, Visit.operators, OpTree.operators] using hops⟩
      simpa [Stands, hstage] using And.intro hall hlead
  | @leave node depth op l r rest x y hx hy =>
      obtain ⟨hnode, hl, hr⟩ := hv.liesIn _ List.mem_cons_self
      refine h.congr rfl ⟨hall, ?_, rest, hv.tail.congr rfl, by simpa [Visit.operators] using hops⟩
      refine ⟨op, l.label, r.label, hnode, (h.operandIn_eq hl).trans hx,
        (h.operandIn_eq hr).trans hy, rfl, rfl, ?_⟩
      simp [Task.make, Task.divides]

/-! ## Signals -/

theorem Sound.turn (h : Sound p t ⟨w, xs⟩) (ht : p.arena.Shows t) (fresh : TaskId) :
    Sound p t ⟨p.proceed fresh w, xs⟩ :=
  Plan.proceed_induction (P := fun w => Sound p t ⟨w, xs⟩)
    (fun _ hstage hw => hw.visit hstage ht fresh) h

theorem Sound.taken (h : Sound p t ⟨w, xs⟩) (ht : p.arena.Shows t) {node : Nat} {task : Task}
    (hstage : w.stage = .offering node task) :
    Sound p t ⟨w.accepted, ⟨node, task, []⟩ :: xs⟩ := by
  have hstands := h.stands
  simp only [Stands, hstage] at hstands
  obtain ⟨hall, hasks, visits, hv, hops⟩ := hstands
  have hleft : nodes xs ++ node :: visits.flatMap Visit.operators = t.operators := by
    simpa using hops
  have hnone : w.valueAt node = none := h.valueAt_eq_none ht hleft (by simp)
  have hwalk := Walk.accepted_eq hstage
  refine ⟨?_, ?_, ⟨hall, hasks, h.inOrder⟩, ?_⟩
  · rw [hwalk]
    exact h.size_eq
  · intro i
    have hsame : w.accepted.valueAt i = w.valueAt i := by rw [hwalk, Walk.valueAt, Walk.valueAt]
    rw [Assignment.valueIn_cons, hsame]
    by_cases hi : node = i
    · subst hi
      simp [hnone, Assignment.value?, Assignment.reply?]
    · simpa [hi] using h.valueAt_eq i
  · rw [hwalk]
    refine ⟨_, xs, rfl, rfl, rfl, rfl, hall, visits, hv.congr rfl, ?_⟩
    simpa using hops

theorem Sound.refused (h : Sound p t ⟨w, xs⟩) {node : Nat} {task : Task}
    (hstage : w.stage = .offering node task) : Sound p t ⟨w.refused, xs⟩ := by
  have hstands := h.stands
  simp only [Stands, hstage] at hstands
  obtain ⟨hall, -, hlead⟩ := hstands
  have hinitial := Leads.initial hlead
  rw [Walk.refused_eq hstage]
  refine h.congr rfl ⟨hinitial, ?_⟩
  intro x hx cause hcause
  obtain ⟨value, hvalue⟩ := hall x hx
  cases hcause.symm.trans hvalue

theorem Sound.hangUp (h : Sound p t ⟨w, xs⟩) {node : Nat} {id : TaskId}
    (hstage : w.stage = .awaiting node id) : Sound p t ⟨w.hungUp, xs⟩ := by
  have hstands := h.stands
  simp only [Stands, hstage] at hstands
  obtain ⟨x, earlier, rfl, -, -, hreply, hall, hlead⟩ := hstands
  have hinitial := Leads.initial hlead
  rw [Walk.hungUp_eq hstage]
  refine h.congr rfl ⟨hinitial, ?_⟩
  intro y hy cause hcause
  rcases List.mem_cons.mp hy with rfl | hy
  · cases hreply.symm.trans hcause
  · obtain ⟨value, hvalue⟩ := hall y hy
    cases hcause.symm.trans hvalue

theorem Sound.result (h : Sound p t ⟨w, xs⟩) (ht : p.arena.Shows t) {node : Nat} {id : TaskId}
    (hstage : w.stage = .awaiting node id) (r : TaskResult) :
    ∃ x earlier, xs = x :: earlier ∧
      Sound p t ⟨w.received r, { x with read := x.read ++ [r] } :: earlier⟩ := by
  have hstands := h.stands
  simp only [Stands, hstage] at hstands
  obtain ⟨x, earlier, rfl, hnode, hid, hreply, hall, visits, hv, hops⟩ := hstands
  refine ⟨x, earlier, rfl, ?_⟩
  have hread := Assignment.reply?_read hreply r
  have hbefore : x.value? = none := by simp [Assignment.value?, hreply]
  have hvalues := h.valueAt_eq
  simp only [Assignment.valueIn_cons, hbefore] at hvalues
  have hops' : nodes ({ x with read := x.read ++ [r] } :: earlier) ++
      visits.flatMap Visit.operators = t.operators := by
    simpa using hops
  by_cases hmatch : r.id = x.task.id
  · rw [if_pos hmatch] at hread
    have hr : r.id = id := hmatch.trans hid
    cases hout : r.outcome with
    | ok value =>
        rw [hout] at hread
        have hmem : node ∈ t.operators := by
          rw [← hops', ← hnode]
          simp
        have hlt : node < w.resolved.size := h.size_eq ▸ ht.lt_size hmem
        rw [Walk.received_value hstage hr hout]
        refine ⟨by simpa using h.size_eq, ?_, h.inOrder, ?_, visits, hv.congr rfl, ?_⟩
        · intro i
          rw [Walk.valueAt_resolve rfl hlt, Assignment.valueIn_cons, hvalues]
          by_cases hi : node = i
          · rw [if_pos hi, if_pos (hnode.trans hi), Assignment.value?, hread]
          · have hne : ¬x.node = i := fun heq => hi (hnode.symm.trans heq)
            simp [hi, hne]
        · intro y hy
          rcases List.mem_cons.mp hy with rfl | hy
          · exact ⟨value, hread⟩
          · exact hall y hy
        · simpa using hops'
    | error cause =>
        rw [hout] at hread
        rw [Walk.received_failure hstage hr hout]
        refine ⟨h.size_eq, ?_, h.inOrder, hops' ▸ List.prefix_append _ _, ?_⟩
        · intro i
          rw [Assignment.valueIn_cons]
          simpa [Assignment.value?, hread, Walk.valueAt] using hvalues i
        · intro y hy found hfound
          rcases List.mem_cons.mp hy with rfl | hy
          · cases hread.symm.trans hfound
            simp [hid]
          · obtain ⟨value, hvalue⟩ := hall y hy
            cases hfound.symm.trans hvalue
  · rw [if_neg hmatch] at hread
    rw [Walk.received_stale hstage (hid ▸ hmatch)]
    refine ⟨h.size_eq, ?_, h.inOrder, ?_⟩
    · intro i
      rw [Assignment.valueIn_cons]
      simpa [Assignment.value?, hread] using hvalues i
    · simp only [Stands, hstage]
      exact ⟨_, earlier, rfl, hnode, hid, hread, hall, visits, hv, by simpa using hops'⟩

/-! ## Runs -/

theorem sound_start (ht : p.arena.Shows t) : Sound p t ⟨p.start, []⟩ := by
  refine ⟨by simp [Plan.start], ?_, trivial, ?_⟩
  · intro node
    simp [Plan.start, Walk.valueAt, valueIn, Array.getElem?_replicate]
    split <;> rfl
  · refine ⟨by simp [AllAnswered], [.enter t 0], ⟨?_, ?_⟩, by simp [nodes, Visit.operators]⟩
    · simp [Plan.start, Visit.frame, ht.root_eq]
    · simpa [Visit.tree] using ht.liesIn

theorem Sound.after {o : Outing} (h : o.Sound p t) (ht : p.arena.Shows t) (s : Signal) :
    (o.after p s).Sound p t := by
  unfold Outing.after
  split
  · exact h.turn ht _
  · next hstage => exact h.taken ht hstage
  · next hstage => exact h.refused hstage
  · next r node id hstage =>
    obtain ⟨x, earlier, hxs, hread⟩ := h.result ht hstage r
    rw [hxs]
    exact hread
  · next hstage => exact h.hangUp hstage
  · exact h

theorem sound_outing (ht : p.arena.Shows t) (signals : List Signal) :
    (p.outing signals).Sound p t := by
  unfold Plan.outing
  suffices hall : ∀ o : Outing, o.Sound p t → (signals.foldl (after p) o).Sound p t from
    hall _ (sound_start ht)
  induction signals with
  | nil => exact fun o ho => ho
  | cons s rest ih => exact fun o ho => ih _ (ho.after ht s)

/-- A walk that is over takes no notice of any signal. -/
theorem after_finished {o : Outing} {outcome : Except EvalError Float}
    (h : o.walk.stage = .finished outcome) (s : Signal) : o.after p s = o := by
  cases s <;> simp [after, h]

/-! ## What the surroundings see -/

/-- The tasks of an outing, the latest of which comes first, follow the post-order of a tree. -/
structure FollowsPostOrder (p : Plan) (t : OpTree Nat) (o : Outing) : Prop where
  /-- The nodes of the tasks are the first operators in post-order, none of them twice. -/
  initial : nodes o.assignments <+: t.operators
  nodup : (nodes o.assignments).Nodup
  /-- A task is handed out when each earlier one has been answered with a value, and it asks for
  what these values lead to. -/
  asks : ∀ later x earlier, o.assignments = later ++ x :: earlier →
    AllAnswered earlier ∧ p.Asks earlier x
  /-- The walk ends when a task fails, when a task is refused, and when no result can come. -/
  ends_of_failure : ∀ x ∈ o.assignments, ∀ cause, x.reply? = some (.error cause) →
    o.walk.stage = .finished (.error (.task x.task.id cause))
  ends_of_refused : ∀ node task, o.walk.stage = .offering node task →
    (o.after p .refused).walk.stage = .finished (.error .taskChannelClosed)
  ends_of_hangUp : ∀ node id, o.walk.stage = .awaiting node id →
    (o.after p .hangUp).walk.stage = .finished (.error (.resultChannelClosed id))
  /-- Nothing is handed out after the end. -/
  final : ∀ outcome, o.walk.stage = .finished outcome →
    ∀ more : List Signal, more.foldl (Outing.after p) o = o
  /-- A value is that of the root, and comes out only when all operators have been answered. -/
  complete : ∀ value, o.walk.stage = .finished (.ok value) →
    nodes o.assignments = t.operators ∧ AllAnswered o.assignments ∧
      p.operandIn o.assignments p.arena.root = some value

theorem inOrder_split {later earlier : List Assignment} {x : Assignment}
    (h : p.InOrder (later ++ x :: earlier)) : AllAnswered earlier ∧ p.Asks earlier x := by
  induction later with
  | nil => exact ⟨h.1, h.2.1⟩
  | cons y later ih => exact ih h.2.2

/-- A task that failed has ended the walk. -/
theorem Sound.ends_of_failure {o : Outing} (h : o.Sound p t) {x : Assignment}
    (hx : x ∈ o.assignments) {cause : TaskError} (hcause : x.reply? = some (.error cause)) :
    o.walk.stage = .finished (.error (.task x.task.id cause)) := by
  have hanswered : ∀ {ys : List Assignment}, AllAnswered ys → x ∉ ys := by
    intro ys hall hy
    obtain ⟨value, hvalue⟩ := hall x hy
    cases hcause.symm.trans hvalue
  have hstands := h.stands
  unfold Stands at hstands
  split at hstands
  · exact (hanswered hstands.1 hx).elim
  · exact (hanswered hstands.1 hx).elim
  · obtain ⟨y, earlier, hxs, -, -, hreply, hall, -⟩ := hstands
    rw [hxs] at hx
    rcases List.mem_cons.mp hx with rfl | hx
    · cases hcause.symm.trans hreply
    · exact (hanswered hall hx).elim
  · exact (hanswered hstands.1 hx).elim
  · next e hstage => rw [hstage, hstands.2 x hx cause hcause]
  · exact hstands.elim

theorem Sound.initial {o : Outing} (h : o.Sound p t) : nodes o.assignments <+: t.operators := by
  have hstands := h.stands
  unfold Stands at hstands
  split at hstands
  · exact Leads.initial hstands.2
  · exact Leads.initial hstands.2.2
  · obtain ⟨x, earlier, -, -, -, -, -, hlead⟩ := hstands
    exact Leads.initial hlead
  · exact hstands.2.1 ▸ List.prefix_refl _
  · exact hstands.1
  · exact hstands.elim

theorem Sound.followsPostOrder {o : Outing} (h : o.Sound p t) (ht : p.arena.Shows t) :
    FollowsPostOrder p t o where
  initial := h.initial
  nodup := ht.operators_nodup.sublist h.initial.sublist
  asks := by
    intro later x earlier hsplit
    exact inOrder_split (hsplit ▸ h.inOrder)
  ends_of_failure := fun _ hx _ hcause => h.ends_of_failure hx hcause
  ends_of_refused := by
    intro node task hstage
    simp [Outing.after, hstage, Walk.refused]
  ends_of_hangUp := by
    intro node id hstage
    simp [Outing.after, hstage, Walk.hungUp]
  final := by
    intro outcome hstage more
    induction more with
    | nil => rfl
    | cons s rest ih =>
        rw [List.foldl_cons, after_finished hstage s]
        exact ih
  complete := by
    intro value hstage
    have hstands := h.stands
    simp only [Stands, hstage] at hstands
    exact ⟨hstands.2.1, hstands.1, hstands.2.2⟩

end Outing

/-- Whatever happens to the walk of an arena that was built from a listing, its tasks follow the
post-order of the arena's tree. -/
theorem Plan.outing_followsPostOrder {tokens : List Token} {a : Arena}
    (h : Arena.ofPostOrder tokens = .ok a) (costs : CostTable) (maxDepth : Nat)
    (signals : List Signal) :
    ∃ t, a.Shows t ∧
      Outing.FollowsPostOrder ⟨a, costs, maxDepth⟩ t
        (Plan.outing ⟨a, costs, maxDepth⟩ signals) := by
  obtain ⟨t, ht⟩ := Arena.exists_shows_of_ofPostOrder h
  exact ⟨t, ht, (Outing.sound_outing ht signals).followsPostOrder ht⟩

/-- The walk of `8 2 3 * /` reads a stale result before that of the product and is hung up on while
it waits for that of the quotient. -/
theorem Plan.outing_followsPostOrder_stale :
    ∃ tokens a, Arena.ofPostOrder tokens = .ok a ∧ tokens.length = 5 ∧
      ∃ t, a.Shows t ∧
        Outing.FollowsPostOrder ⟨a, .standard, 2⟩ t
          (Plan.outing ⟨a, .standard, 2⟩
            [.turn ⟨0⟩, .taken, .result (.failure ⟨7⟩ .divisionByZero),
              .result (.success ⟨0⟩ 0.0), .turn ⟨1⟩, .taken, .hangUp]) := by
  have htokens : Arena.ofPostOrder
      [⟨.numeral "8", ⟨0, 1⟩⟩, ⟨.numeral "2", ⟨2, 3⟩⟩, ⟨.numeral "3", ⟨4, 5⟩⟩,
        ⟨.operator .mul, ⟨3, 4⟩⟩, ⟨.operator .div, ⟨1, 2⟩⟩] = .ok _ := rfl
  exact ⟨_, _, htokens, rfl, Plan.outing_followsPostOrder htokens _ _ _⟩

end TaskFarm
