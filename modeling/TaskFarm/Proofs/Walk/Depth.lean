import TaskFarm.Proofs.Expr.Height
import TaskFarm.Proofs.Walk.Reading

/-!
# The depth limit of a walk

A walk gives up when it comes to an operator that has too many operators above it.  A tree has such
an operator exactly if it is higher than the limit allows, and the tour of the tree says which
operators are done before the first one.  A walk whose tasks are all answered with values has no
other reason to end without a value.
-/

namespace TaskFarm

open TaskFarm.Expr (Arena Operator OpTree Token)
open Assignment (nodes AllAnswered)

/-- An operator is entered that has so many operators above it. -/
def Stop.entersAt (depth : Nat) : Stop → Bool
  | enter _ d => d == depth
  | _ => false

namespace Expr.OpTree

/-- The operators that are done before the first operator that has `maxDepth` operators above it is
entered. -/
def completedBefore (maxDepth : Nat) (t : OpTree Nat) : List Nat :=
  Stop.done ((t.tour 0).takeWhile fun stop => !stop.entersAt maxDepth)

/-- An operator has `m` operators above it in a tree that is higher. -/
theorem exists_enter_iff {t : OpTree Nat} {depth m : Nat} (hle : depth ≤ m) :
    (∃ node, .enter node m ∈ t.tour depth) ↔ m + 1 < depth + t.height := by
  induction t generalizing depth with
  | leaf i v =>
      simp only [tour, height, List.mem_singleton, reduceCtorEq, exists_false, false_iff]
      omega
  | branch i op l r ihl ihr =>
      have hmem : ∀ node, .enter node m ∈ (branch i op l r).tour depth ↔
          node = i ∧ m = depth ∨
            .enter node m ∈ l.tour (depth + 1) ∨ .enter node m ∈ r.tour (depth + 1) := by
        intro node
        simp [tour]
      have hroot : (∃ node, node = i ∧ m = depth) ↔ m = depth := by simp
      simp only [hmem, exists_or, hroot]
      rcases Nat.eq_or_lt_of_le hle with rfl | hlt
      · have hpos : 0 < max l.height r.height := by
          cases l <;> simp only [height] <;> omega
        refine iff_of_true (.inl rfl) ?_
        rw [height]
        omega
      · rw [ihl hlt, ihr hlt, height]
        omega

end Expr.OpTree

theorem Plan.Meets.completed {p : Plan} {t : OpTree Nat} {done : List Nat} (h : p.Meets t done) :
    done = t.completedBefore p.maxDepth := by
  obtain ⟨past, node, rest, htour, hpast, rfl⟩ := h
  have hfront : ∀ stop ∈ past, (!stop.entersAt p.maxDepth) = true := by
    intro stop hstop
    cases stop with
    | enter other depth =>
        have hne : depth ≠ p.maxDepth := by
          rintro rfl
          exact hpast other hstop
        simp [Stop.entersAt, hne]
    | number other => rfl
    | leave other => rfl
  rw [OpTree.completedBefore, htour, List.takeWhile_append_of_pos hfront]
  simp [Stop.entersAt]

/-- An answered task has a value, so that all of them can be looked at. -/
instance Assignment.decidableAllAnswered (xs : List Assignment) : Decidable (AllAnswered xs) :=
  decidable_of_iff (∀ x ∈ xs, x.value?.isSome) <| by
    refine forall₂_congr fun x _ => ?_
    unfold Assignment.value?
    cases hreply : x.reply? with
    | none => simp
    | some outcome => cases outcome <;> simp

namespace Outing

variable {p : Plan} {t : OpTree Nat} {o : Outing} {s : Surroundings}

/-! ## Tasks that are taken -/

/-- The walk has not ended because its task was refused. -/
def Welcome (o : Outing) : Prop :=
  o.walk.stage ≠ .finished (.error .taskChannelClosed)

theorem Welcome.turn {w : Walk} {xs : List Assignment} (h : Welcome ⟨w, xs⟩)
    (hsound : Sound p t ⟨w, xs⟩) (ht : p.arena.Shows t) (fresh : TaskId) :
    Welcome ⟨p.proceed fresh w, xs⟩ := by
  -- the invariant says what a visit can come to
  suffices hboth : Sound p t ⟨p.proceed fresh w, xs⟩ ∧ Welcome ⟨p.proceed fresh w, xs⟩ from hboth.2
  apply Plan.proceed_induction (P := fun w => Sound p t ⟨w, xs⟩ ∧ Welcome ⟨w, xs⟩)
  · intro w hstage hw
    refine ⟨hw.1.visit hstage ht fresh, ?_⟩
    obtain ⟨visits, -, -, -, hvisited⟩ := hw.1.visited hstage ht fresh
    generalize p.visit fresh w = w' at hvisited
    cases hvisited <;> simp [Welcome, hstage]
  · exact ⟨hsound, h⟩

/-- Only a refusal ends a walk so. -/
theorem Welcome.after (h : o.Welcome) (hsound : o.Sound p t) (ht : p.arena.Shows t) {x : Signal}
    (hx : x ≠ .refused) : (o.after p x).Welcome := by
  unfold Outing.after
  split
  · exact h.turn hsound ht _
  · next hstage => simp [Welcome, Walk.accepted, hstage]
  · exact absurd rfl hx
  · next r node id hstage =>
    by_cases hmatch : r.id = id
    · cases hout : r.outcome <;> simp [Welcome, Walk.received, hstage, hmatch, hout]
    · simp [Welcome, Walk.received, hstage, hmatch]
  · next hstage => simp [Welcome, Walk.hungUp, hstage]
  · exact h

theorem Welcome.goOn (h : o.Welcome) (hsound : o.Sound p t) (ht : p.arena.Shows t)
    (htakes : ∀ n, s.takes n = true) : (o.goOn p s).Welcome := by
  unfold Outing.goOn
  rw [if_pos (htakes _)]
  exact (h.after hsound ht (by simp)).after (hsound.after ht _) ht (by simp)

theorem welcome_reading (ht : p.arena.Shows t) (htakes : ∀ n, s.takes n = true)
    (results : List TaskResult) : (p.reading s results).Welcome := by
  suffices hboth : (p.reading s results).Rests p t ∧ (p.reading s results).Welcome from hboth.2
  unfold Plan.reading
  apply List.foldlRecOn (motive := fun o : Outing => o.Rests p t ∧ o.Welcome)
  · refine ⟨rests_start ht s, ?_⟩
    exact Welcome.goOn (by simp [Welcome, Plan.start]) (sound_start ht) ht htakes
  · rintro o ⟨hrests, hwelcome⟩ r -
    refine ⟨hrests.read ht s r, ?_⟩
    exact (hwelcome.after hrests.sound ht (by simp)).goOn (hrests.sound.after ht _) ht htakes

/-! ## Tasks that are answered -/

/-- Each task has been answered with the value for its node. -/
def AnsweredBy (value : Nat → Float) (xs : List Assignment) : Prop :=
  ∀ x ∈ xs, x.reply? = some (.ok (value x.node))

/-- The latest task has been taken and is waited for. -/
def Waits (o : Outing) (x : Assignment) (earlier : List Assignment) : Prop :=
  o.assignments = x :: earlier ∧ o.walk.stage = .awaiting x.node x.task.id

/-- A walk that goes on hands out one task at most, which it then waits for. -/
theorem goOn_cases (o : Outing) (htakes : ∀ n, s.takes n = true) :
    (o.goOn p s).assignments = o.assignments ∨ ∃ x, (o.goOn p s).Waits x o.assignments := by
  unfold Outing.goOn
  rw [if_pos (htakes _)]
  have hturn : (o.after p (.turn (s.id o.assignments.length))).assignments = o.assignments := by
    cases hstage : o.walk.stage <;> simp [Outing.after, hstage]
  generalize o.after p (.turn (s.id o.assignments.length)) = o' at hturn ⊢
  rw [← hturn]
  cases hstage : o'.walk.stage with
  | offering node task =>
      refine .inr ⟨⟨node, task, []⟩, ?_, ?_⟩
      · simp [Outing.after, hstage]
      · simp [Outing.after, hstage, Walk.accepted]
  | _ => exact .inl (by simp [Outing.after, hstage])

theorem Waits.stands {x : Assignment} {earlier : List Assignment} (h : o.Waits x earlier)
    (hsound : o.Sound p t) : x.reply? = none ∧ o.Leads p t [] := by
  obtain ⟨hxs, hstage⟩ := h
  have hstands := hsound.stands
  simp only [Stands, hstage] at hstands
  obtain ⟨y, earlier', hxs', -, -, hreply, -, hleads⟩ := hstands
  obtain ⟨rfl, -⟩ := List.cons.inj (hxs.symm.trans hxs')
  exact ⟨hreply, hleads⟩

theorem Waits.length_le {x : Assignment} {earlier : List Assignment} (h : o.Waits x earlier)
    (hsound : o.Sound p t) : o.assignments.length ≤ t.operators.length := by
  simpa [nodes] using (h.stands hsound).2.initial.length_le

/-- The result that a walk waits for answers its latest task. -/
theorem Waits.answeredBy {x : Assignment} {earlier : List Assignment} (h : o.Waits x earlier)
    (hsound : o.Sound p t) {value : Nat → Float} (hearlier : AnsweredBy value earlier) :
    AnsweredBy value (o.after p (.result (.success x.task.id (value x.node)))).assignments := by
  have hreply := (h.stands hsound).1
  obtain ⟨hxs, hstage⟩ := h
  simp only [Outing.after, hstage, hxs, Assignment.readLatest]
  refine List.forall_mem_cons.mpr ⟨?_, hearlier⟩
  rw [Assignment.reply?_read hreply]
  exact if_pos rfl

/-- Each task that is answered leads to one more at most, and there are no more of them than
operators. -/
theorem Rests.exists_answeredBy (h : o.Rests p t) (ht : p.arena.Shows t)
    (htakes : ∀ n, s.takes n = true) (value : Nat → Float) {x : Assignment}
    {earlier : List Assignment} (hwaits : o.Waits x earlier)
    (hearlier : AnsweredBy value earlier) :
    ∃ results : List TaskResult,
      AnsweredBy value (results.foldl (Outing.read p s) o).assignments := by
  obtain ⟨left, hleft⟩ : ∃ left, t.operators.length < o.assignments.length + left :=
    ⟨t.operators.length + 1, by omega⟩
  induction left generalizing o x earlier with
  | zero =>
      have hle := hwaits.length_le h.sound
      omega
  | succ left ih =>
      let r := TaskResult.success x.task.id (value x.node)
      have hanswered := hwaits.answeredBy h.sound hearlier
      have hlength : (o.after p (.result r)).assignments.length = o.assignments.length := by
        simp [Outing.after, hwaits.1, hwaits.2, Assignment.readLatest]
      rcases (o.after p (.result r)).goOn_cases (p := p) htakes with hsame | ⟨y, hy⟩
      · refine ⟨[r], ?_⟩
        rw [List.foldl_cons, List.foldl_nil, Outing.read, hsame]
        exact hanswered
      · have hread := h.read ht s r
        obtain ⟨results, hresults⟩ := ih hread hy hanswered (by
          rw [Outing.read, hy.1, List.length_cons, hlength]
          omega)
        exact ⟨r :: results, hresults⟩

theorem exists_answeredBy (ht : p.arena.Shows t) (htakes : ∀ n, s.takes n = true)
    (value : Nat → Float) :
    ∃ results, AnsweredBy value (p.reading s results).assignments := by
  have hnone : AnsweredBy value [] := List.forall_mem_nil _
  rcases goOn_cases (p := p) ⟨p.start, []⟩ htakes with hsame | ⟨x, hx⟩
  · refine ⟨[], ?_⟩
    rw [Plan.reading, List.foldl_nil, hsame]
    exact hnone
  · exact (rests_start ht s).exists_answeredBy ht htakes value hx hnone

/-! ## The limit -/

/-- How a walk ends whose tasks have all been taken and answered with values. -/
theorem Rests.exceeds_or_value (h : o.Rests p t) (hwelcome : o.Welcome)
    (hall : AllAnswered o.assignments) :
    ((∃ depth limit, o.walk.stage = .finished (.error (.depthExceeded depth limit))) ∧
        p.maxDepth + 1 < t.height) ∨
      (∃ value, o.walk.stage = .finished (.ok value)) ∧ t.height ≤ p.maxDepth + 1 := by
  have hlimit := OpTree.exists_enter_iff (t := t) (Nat.zero_le p.maxDepth)
  rw [Nat.zero_add] at hlimit
  have hunanswered : ∀ x ∈ o.assignments, x.reply? ≠ none := by
    intro x hx hnone
    obtain ⟨value, hvalue⟩ := hall x hx
    cases hnone.symm.trans hvalue
  cases h.atRest with
  | awaiting node id hstage =>
      have hstands := h.sound.stands
      simp only [Stands, hstage] at hstands
      obtain ⟨x, earlier, hxs, -, -, hreply, -⟩ := hstands
      exact absurd hreply (hunanswered x (hxs ▸ List.mem_cons_self))
  | finished outcome hstage =>
      have htoured := h.toured
      cases outcome with
      | ok value =>
          simp only [Toured, hstage] at htoured
          refine .inr ⟨⟨value, hstage⟩, Nat.le_of_not_lt fun hlt => ?_⟩
          obtain ⟨node, hnode⟩ := hlimit.mpr hlt
          exact htoured node hnode
      | error e =>
          cases e with
          | task id cause =>
              simp only [Toured, hstage] at htoured
              obtain ⟨x, hx, hcause⟩ := htoured
              obtain ⟨value, hvalue⟩ := hall x hx
              cases hcause.symm.trans hvalue
          | taskChannelClosed => exact absurd hstage hwelcome
          | resultChannelClosed id =>
              simp only [Toured, hstage] at htoured
              obtain ⟨x, hx, hnone⟩ := htoured
              exact absurd hnone (hunanswered x hx)
          | depthExceeded depth limit =>
              simp only [Toured, hstage] at htoured
              obtain ⟨-, -, past, node, rest, htour, -⟩ := htoured
              have hnode : .enter node p.maxDepth ∈ t.tour 0 := by simp [htour]
              exact .inl ⟨⟨depth, limit, hstage⟩, hlimit.mp ⟨node, hnode⟩⟩

/-- A walk that has gone too deep says how deep it was allowed to go, and has handed out the tasks of
the operators that are done before the first one as deep as that. -/
structure KeepsLimit (p : Plan) (t : OpTree Nat) (o : Outing) : Prop where
  reported : ∀ depth limit, o.walk.stage = .finished (.error (.depthExceeded depth limit)) →
    depth = p.maxDepth ∧ limit = p.maxDepth
  completed : ∀ depth limit, o.walk.stage = .finished (.error (.depthExceeded depth limit)) →
    nodes o.assignments = t.completedBefore p.maxDepth

theorem Toured.keepsLimit (h : o.Toured p t) : o.KeepsLimit p t := by
  refine ⟨fun depth limit hstage => ?_, fun depth limit hstage => ?_⟩
  · simp only [Toured, hstage] at h
    exact ⟨h.1, h.2.1⟩
  · simp only [Toured, hstage] at h
    exact h.2.2.completed

end Outing

/-- The depth limit of a plan is exact. -/
structure Plan.ExactLimit (p : Plan) (t : OpTree Nat) : Prop where
  /-- Whatever happens to a walk, it goes too deep only at an operator as deep as the limit. -/
  outing : ∀ signals, (p.outing signals).KeepsLimit p t
  reading : ∀ s results, (p.reading s results).KeepsLimit p t
  /-- If all tasks are taken and answered with values, a walk goes too deep exactly if the tree is
  higher than the limit allows. -/
  exceeds_iff : ∀ (s : Surroundings) (results : List TaskResult), (∀ n, s.takes n = true) →
    AllAnswered (p.reading s results).assignments →
      ((∃ depth limit, (p.reading s results).walk.stage =
          .finished (.error (.depthExceeded depth limit))) ↔ p.maxDepth + 1 < p.arena.depth)
  /-- Otherwise it comes to a value. -/
  value : ∀ (s : Surroundings) (results : List TaskResult), (∀ n, s.takes n = true) →
    AllAnswered (p.reading s results).assignments → p.arena.depth ≤ p.maxDepth + 1 →
      ∃ value, (p.reading s results).walk.stage = .finished (.ok value)
  /-- Whatever the values are, some results answer all tasks with them. -/
  answerable : ∀ s : Surroundings, (∀ n, s.takes n = true) → ∀ value : Nat → Float,
    ∃ results, Outing.AnsweredBy value (p.reading s results).assignments

theorem Plan.exactLimit_of_ofPostOrder {tokens : List Token} {a : Arena}
    (h : Arena.ofPostOrder tokens = .ok a) (costs : CostTable) (maxDepth : Nat) :
    ∃ t, a.Shows t ∧ Plan.ExactLimit ⟨a, costs, maxDepth⟩ t := by
  obtain ⟨t, ht⟩ := Arena.exists_shows_of_ofPostOrder h
  refine ⟨t, ht, ?_, ?_, ?_, ?_, ?_⟩
  · exact fun signals => (Outing.toured_outing ht signals).keepsLimit
  · exact fun s results => (Outing.rests_reading ht s results).toured.keepsLimit
  · intro s results htakes hall
    rw [ht.depth_eq]
    rcases (Outing.rests_reading ht s results).exceeds_or_value
      (Outing.welcome_reading ht htakes results) hall with ⟨hexceeds, hlt⟩ | ⟨⟨value, hvalue⟩, hle⟩
    · exact iff_of_true hexceeds hlt
    · refine iff_of_false ?_ (Nat.not_lt.mpr hle)
      rintro ⟨depth, limit, hstage⟩
      cases hvalue.symm.trans hstage
  · intro s results htakes hall hle
    rw [ht.depth_eq] at hle
    rcases (Outing.rests_reading ht s results).exceeds_or_value
      (Outing.welcome_reading ht htakes results) hall with ⟨-, hlt⟩ | ⟨hvalue, -⟩
    · exact absurd hlt (Nat.not_lt.mpr hle)
    · exact hvalue
  · exact fun s htakes value => Outing.exists_answeredBy ht htakes value

/-- With at most two operators above an operator, the walk of `1 2 + 3 4 5 + * -` hands out the
first sum only. -/
theorem Plan.exactLimit_of_ofPostOrder_completed :
    ∃ tokens a, Arena.ofPostOrder tokens = .ok a ∧ tokens.length = 9 ∧ a.depth = 4 ∧
      (∃ s results, (∀ n, s.takes n = true) ∧
        AllAnswered (Plan.reading ⟨a, .standard, 2⟩ s results).assignments ∧
        nodes (Plan.reading ⟨a, .standard, 2⟩ s results).assignments = [2]) ∧
      ∃ t, a.Shows t ∧ Plan.ExactLimit ⟨a, .standard, 2⟩ t := by
  have htokens : Arena.ofPostOrder
      [⟨.numeral "1", ⟨0, 1⟩⟩, ⟨.numeral "2", ⟨2, 3⟩⟩, ⟨.operator .add, ⟨1, 2⟩⟩,
        ⟨.numeral "3", ⟨4, 5⟩⟩, ⟨.numeral "4", ⟨6, 7⟩⟩, ⟨.numeral "5", ⟨8, 9⟩⟩,
        ⟨.operator .add, ⟨7, 8⟩⟩, ⟨.operator .mul, ⟨5, 6⟩⟩, ⟨.operator .sub, ⟨3, 4⟩⟩] = .ok _ := rfl
  refine ⟨_, _, htokens, rfl, by decide +kernel, ?_, Plan.exactLimit_of_ofPostOrder htokens _ _⟩
  refine ⟨⟨TaskId.mk, fun _ => true⟩, [.success ⟨0⟩ 3.0], fun _ => rfl, ?_, ?_⟩
  · decide +kernel
  · decide +kernel

end TaskFarm
