import TaskFarm.Proofs.Walk.Tour

/-!
# Reading a stream of results

A walk that reads a stream of results goes on after each of them until it needs the next one.  It
waits for one result only, so that any other one is stale when it is read: it is dropped, and does
not show in anything that the walk does later.  Two streams of which one is the other with stale
results put in are thus the same to the walk.
-/

namespace TaskFarm

open TaskFarm.Expr (Arena OpTree Token)
open Assignment (nodes)

/-- What a walk finds around it. -/
structure Surroundings where
  /-- The ids that its tasks get, one after the other. -/
  id : Nat → TaskId
  /-- Which of its tasks are taken; any other one is refused. -/
  takes : Nat → Bool

namespace Outing

/-- Go on until a result is needed: the walk gets a turn, and what it offers then is taken or
refused. -/
def goOn (p : Plan) (s : Surroundings) (o : Outing) : Outing :=
  (o.after p (.turn (s.id o.assignments.length))).after p
    (if s.takes o.assignments.length then .taken else .refused)

/-- Read a result and go on. -/
def read (p : Plan) (s : Surroundings) (o : Outing) (r : TaskResult) : Outing :=
  (o.after p (.result r)).goOn p s

/-- The id of the result that the walk waits for. -/
def awaited? (o : Outing) : Option TaskId :=
  match o.walk.stage with
  | .awaiting _ id => some id
  | _ => none

/-- The tasks that were handed out with their nodes, in order. -/
def handedOut (o : Outing) : List (Nat × Task) :=
  o.assignments.reverse.map fun x => (x.node, x.task)

end Outing

namespace Plan

/-- The outing of a walk that has read some results, and may read more. -/
def reading (p : Plan) (s : Surroundings) (results : List TaskResult) : Outing :=
  results.foldl (Outing.read p s) (Outing.goOn p s ⟨p.start, []⟩)

/-- The outing of a walk that has read some results, after which no other one can come. -/
def readingAll (p : Plan) (s : Surroundings) (results : List TaskResult) : Outing :=
  (p.reading s results).after p .hangUp

end Plan

/-- One stream of results is another one with some put in, each of which is stale when the outing
reads it: the walk does not wait for it. -/
inductive Inserts (p : Plan) (s : Surroundings) :
    Outing → List TaskResult → List TaskResult → Prop where
  | nil (o : Outing) : Inserts p s o [] []
  | common {o : Outing} {results results' : List TaskResult} (r : TaskResult)
    (h : Inserts p s (o.read p s r) results results') :
    Inserts p s o (r :: results) (r :: results')
  | stale {o : Outing} {results results' : List TaskResult} (r : TaskResult)
    (hstale : o.awaited? ≠ some r.id) (h : Inserts p s (o.read p s r) results results') :
    Inserts p s o results (r :: results')

namespace Outing

/-! ## Outings at rest -/

/-- An outing is at rest if it needs a result or is over. -/
inductive AtRest (o : Outing) : Prop where
  | awaiting (node : Nat) (id : TaskId) (h : o.walk.stage = .awaiting node id)
  | finished (outcome : Except EvalError Float) (h : o.walk.stage = .finished outcome)

theorem AtRest.goOn_eq {p : Plan} {s : Surroundings} {o : Outing} (h : o.AtRest) :
    o.goOn p s = o := by
  cases h with
  | awaiting node id h =>
      have hturn : ∀ fresh, o.after p (.turn fresh) = o := fun fresh => by simp [after, h]
      unfold goOn
      rw [hturn]
      split <;> simp [after, h]
  | finished outcome h =>
      unfold goOn
      rw [after_finished h, after_finished h]

/-- An outing between two results. -/
structure Rests (p : Plan) (t : OpTree Nat) (o : Outing) : Prop where
  sound : o.Sound p t
  toured : o.Toured p t
  atRest : o.AtRest

variable {p : Plan} {t : OpTree Nat} {o o' : Outing} {s : Surroundings}

theorem rests_goOn (hsound : o.Sound p t) (htoured : o.Toured p t) (ht : p.arena.Shows t)
    (s : Surroundings) : (o.goOn p s).Rests p t := by
  unfold goOn
  have hsound' := hsound.after ht (.turn (s.id o.assignments.length))
  have htoured' := htoured.after hsound ht (.turn (s.id o.assignments.length))
  have hhalts := htoured.turn_halts hsound ht (s.id o.assignments.length)
  generalize o.after p (.turn (s.id o.assignments.length)) = o' at *
  refine ⟨hsound'.after ht _, htoured'.after hsound' ht _, ?_⟩
  cases hstage : o'.walk.stage with
  | walking => exact absurd hstage hhalts
  | offering node task =>
      split
      · exact .awaiting node task.id (by simp [after, hstage, Walk.accepted])
      · exact .finished (.error .taskChannelClosed) (by simp [after, hstage, Walk.refused])
  | awaiting node id =>
      refine .awaiting node id ?_
      split <;> simp [after, hstage]
  | finished outcome =>
      rw [after_finished hstage]
      exact .finished outcome hstage
  | stuck =>
      have hstands := hsound'.stands
      simp only [Stands, hstage] at hstands

theorem Rests.read (h : o.Rests p t) (ht : p.arena.Shows t) (s : Surroundings) (r : TaskResult) :
    (o.read p s r).Rests p t :=
  rests_goOn (h.sound.after ht _) (h.toured.after h.sound ht _) ht s

theorem rests_start (ht : p.arena.Shows t) (s : Surroundings) :
    (goOn p s ⟨p.start, []⟩).Rests p t :=
  rests_goOn (sound_start ht) (toured_start ht) ht s

theorem rests_reading (ht : p.arena.Shows t) (s : Surroundings) (results : List TaskResult) :
    (p.reading s results).Rests p t := by
  unfold Plan.reading
  apply List.foldlRecOn (motive := fun o : Outing => o.Rests p t)
  · exact rests_start ht s
  · exact fun o hrests r _ => hrests.read ht s r

/-- When no result can come any more, a walk is over. -/
theorem AtRest.hangUp (h : o.AtRest) :
    ∃ outcome, (o.after p .hangUp).walk.stage = .finished outcome := by
  cases h with
  | awaiting node id h => exact ⟨.error (.resultChannelClosed id), by simp [after, h, Walk.hungUp]⟩
  | finished outcome h => exact ⟨outcome, by rw [after_finished h, h]⟩

/-! ## Outings that do the same -/

/-- Two outings have come to the same and handed out the same tasks for the same nodes; they may
have read different results. -/
structure Alike (o o' : Outing) : Prop where
  walk_eq : o.walk = o'.walk
  handedOut_eq : o.handedOut = o'.handedOut

theorem handedOut_readLatest (w w' : Walk) (r : TaskResult) (xs : List Assignment) :
    handedOut ⟨w, Assignment.readLatest r xs⟩ = handedOut ⟨w', xs⟩ := by
  cases xs <;> simp [handedOut, Assignment.readLatest]

namespace Alike

theorem refl (o : Outing) : Alike o o :=
  ⟨rfl, rfl⟩

theorem trans {o'' : Outing} (h : Alike o o') (h' : Alike o' o'') : Alike o o'' :=
  ⟨h.walk_eq.trans h'.walk_eq, h.handedOut_eq.trans h'.handedOut_eq⟩

theorem length_eq (h : Alike o o') : o.assignments.length = o'.assignments.length := by
  simpa [handedOut] using congrArg List.length h.handedOut_eq

/-- The same signal keeps them alike. -/
theorem after (h : Alike o o') (x : Signal) : Alike (o.after p x) (o'.after p x) := by
  obtain ⟨w, xs⟩ := o
  obtain ⟨w', xs'⟩ := o'
  obtain ⟨rfl, htasks⟩ := h
  have hkept : ∀ w'', Alike ⟨w'', xs⟩ ⟨w'', xs'⟩ := fun w'' => ⟨rfl, htasks⟩
  unfold Outing.after
  cases x with
  | turn fresh =>
      cases w.stage <;> exact hkept _
  | taken =>
      cases w.stage with
      | offering node task =>
          refine ⟨rfl, ?_⟩
          simpa [handedOut] using htasks
      | _ => exact hkept _
  | refused =>
      cases w.stage <;> exact hkept _
  | result r =>
      cases w.stage with
      | awaiting node id =>
          refine ⟨rfl, ?_⟩
          rw [handedOut_readLatest _ w, handedOut_readLatest _ w, htasks]
      | _ => exact hkept _
  | hangUp =>
      cases w.stage <;> exact hkept _

theorem goOn (h : Alike o o') : Alike (o.goOn p s) (o'.goOn p s) := by
  unfold Outing.goOn
  rw [h.length_eq]
  exact (h.after _).after _

theorem read (h : Alike o o') (r : TaskResult) : Alike (o.read p s r) (o'.read p s r) :=
  (h.after _).goOn

end Alike

/-- A stale result leaves no trace. -/
theorem Rests.alike_of_stale (h : o.Rests p t) {r : TaskResult}
    (hstale : o.awaited? ≠ some r.id) : Alike (o.read p s r) o := by
  unfold Outing.read
  suffices hdropped : Alike (o.after p (.result r)) o by
    have hgone := hdropped.goOn (p := p) (s := s)
    rwa [h.atRest.goOn_eq] at hgone
  cases h.atRest with
  | awaiting node id hstage =>
      have hne : r.id ≠ id := by
        rintro rfl
        simp [awaited?, hstage] at hstale
      have hwalk : o.walk.received r = o.walk := by simp [Walk.received, hstage, hne]
      simp only [Outing.after, hstage]
      exact ⟨hwalk, handedOut_readLatest _ _ r o.assignments⟩
  | finished outcome hstage =>
      rw [after_finished hstage]
      exact Alike.refl o

end Outing

/-! ## Streams -/

theorem Inserts.alike {p : Plan} {s : Surroundings} {t : OpTree Nat} {o o' : Outing}
    {results results' : List TaskResult} (h : Inserts p s o results results')
    (ht : p.arena.Shows t) (hrests : o.Rests p t) (hlike : o.Alike o') :
    (results'.foldl (Outing.read p s) o).Alike (results.foldl (Outing.read p s) o') := by
  induction h generalizing o' with
  | nil o => exact hlike
  | common r h ih => exact ih (hrests.read ht s r) (hlike.read r)
  | stale r hstale h ih =>
      exact ih (hrests.read ht s r) ((hrests.alike_of_stale hstale).trans hlike)

/-- Stale results in a stream do not change what a walk comes to, the values it has found, and the
tasks it has handed out, whether more results may come or not; and if none can come, the walk is
over. -/
theorem Plan.reading_inserts {tokens : List Token} {a : Arena}
    (h : Arena.ofPostOrder tokens = .ok a) (costs : CostTable) (maxDepth : Nat) (s : Surroundings)
    {results results' : List TaskResult}
    (hinserts : Inserts ⟨a, costs, maxDepth⟩ s
      (Outing.goOn ⟨a, costs, maxDepth⟩ s ⟨Plan.start ⟨a, costs, maxDepth⟩, []⟩)
      results results') :
    Outing.Alike (Plan.reading ⟨a, costs, maxDepth⟩ s results')
        (Plan.reading ⟨a, costs, maxDepth⟩ s results) ∧
      Outing.Alike (Plan.readingAll ⟨a, costs, maxDepth⟩ s results')
        (Plan.readingAll ⟨a, costs, maxDepth⟩ s results) ∧
      ∃ outcome, (Plan.readingAll ⟨a, costs, maxDepth⟩ s results).walk.stage =
        .finished outcome := by
  obtain ⟨t, ht⟩ := Arena.exists_shows_of_ofPostOrder h
  have hlike := hinserts.alike ht (Outing.rests_start ht s) (Outing.Alike.refl _)
  exact ⟨hlike, hlike.after .hangUp, (Outing.rests_reading ht s results).atRest.hangUp⟩

/-- The walk of `1 2 + 3 *` drops a result of an unknown task, one that it has read before, and one
that comes when it is over. -/
theorem Plan.reading_inserts_repeated :
    ∃ tokens a, Arena.ofPostOrder tokens = .ok a ∧ tokens.length = 5 ∧
      ∃ s results results', results.length = 2 ∧ results'.length = 5 ∧
        Inserts ⟨a, .standard, 2⟩ s
          (Outing.goOn ⟨a, .standard, 2⟩ s ⟨Plan.start ⟨a, .standard, 2⟩, []⟩) results results' ∧
        (Outing.Alike (Plan.reading ⟨a, .standard, 2⟩ s results')
            (Plan.reading ⟨a, .standard, 2⟩ s results) ∧
          Outing.Alike (Plan.readingAll ⟨a, .standard, 2⟩ s results')
            (Plan.readingAll ⟨a, .standard, 2⟩ s results) ∧
          ∃ outcome, (Plan.readingAll ⟨a, .standard, 2⟩ s results).walk.stage =
            .finished outcome) := by
  have htokens : Arena.ofPostOrder
      [⟨.numeral "1", ⟨0, 1⟩⟩, ⟨.numeral "2", ⟨2, 3⟩⟩, ⟨.operator .add, ⟨1, 2⟩⟩,
        ⟨.numeral "3", ⟨4, 5⟩⟩, ⟨.operator .mul, ⟨3, 4⟩⟩] = .ok _ := rfl
  refine ⟨_, _, htokens, rfl, ⟨TaskId.mk, fun _ => true⟩, [.success ⟨0⟩ 3.0, .success ⟨1⟩ 9.0],
    [.failure ⟨7⟩ .divisionByZero, .success ⟨0⟩ 3.0, .success ⟨0⟩ 4.0, .success ⟨1⟩ 9.0,
      .success ⟨1⟩ 9.0], rfl, rfl, ?inserts, Plan.reading_inserts htokens _ _ _ ?inserts⟩
  exact .stale _ (by decide +kernel) (.common _ (.stale _ (by decide +kernel)
    (.common _ (.stale _ (by decide +kernel) (.nil _)))))

end TaskFarm
