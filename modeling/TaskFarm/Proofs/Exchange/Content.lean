import TaskFarm.Proofs.Exchange.Carrying
import TaskFarm.Proofs.Exchange.Journal

/-!
# What a deal brings into an exchange

Tasks come into an exchange only by being sent and results only by being submitted.  So whatever
holds of all tasks and results in an exchange goes on to hold, if it holds of what a deal brings.
-/

namespace TaskFarm.Exchange

variable {genuine : Task → Prop} {P : TaskResult → Prop} {x x' : Exchange} {s : SessionId}
  {session : Session} {d : Deal}

/-- Every result in the sessions has a property. -/
def ResultsIn (P : TaskResult → Prop) (x : Exchange) : Prop :=
  ∀ (s : SessionId) (session : Session), x.sessions[s]? = some session →
    ∀ r ∈ session.results.contents, P r

theorem resultsIn_opened (settings : QueueSettings) : (opened settings).ResultsIn P :=
  fun s session hs => by simp [opened] at hs

theorem ResultsIn.mono {P' : TaskResult → Prop} (h : x.ResultsIn P) (hP : ∀ r, P r → P' r) :
    x.ResultsIn P' :=
  fun s session hs r hr => hP r (h s session hs r hr)

theorem ResultsIn.of_sessions_eq (h : x.ResultsIn P) {y : Exchange}
    (hsessions : y.sessions = x.sessions) : y.ResultsIn P := by
  unfold ResultsIn
  rw [hsessions]
  exact h

theorem ResultsIn.setSession (h : x.ResultsIn P) (hs : x.sessions[s]? = some session)
    {session' : Session} (hresults : ∀ r ∈ session'.results.contents, P r) :
    (x.setSession s session').ResultsIn P := by
  intro s' found hfound
  rcases setSession_cases hs hfound with ⟨-, rfl⟩ | ⟨-, hold⟩
  · exact hresults
  · exact h s' found hold

/-- A session keeps its results or loses some of them. -/
theorem ResultsIn.shrink (h : x.ResultsIn P) (hs : x.sessions[s]? = some session)
    {session' : Session} (hsub : session'.results.contents ⊆ session.results.contents) :
    (x.setSession s session').ResultsIn P :=
  h.setSession hs fun r hr => h s session hs r (hsub hr)

theorem ResultsIn.relayStep (h : x.ResultsIn P) (hstep : x.relayStep? s = some x') :
    x'.ResultsIn P := by
  obtain ⟨session, hs, ⟨-, htakes⟩ | ⟨task, -, hputs⟩⟩ := relayStep?_cases hstep
  · rcases relayTakes?_cases htakes with ⟨task, tasks, -, -, rfl⟩ | ⟨tasks, -, -, rfl⟩
    · exact (h.of_sessions_eq (y := x.addRoute task.id s) rfl).shrink hs fun _ => id
    · exact h.shrink hs fun _ => id
  · obtain ⟨sending, queue, -, hcases⟩ := relayPuts?_cases hputs
    have hqueue : ({ x with queue } : Exchange).ResultsIn P := h.of_sessions_eq rfl
    rcases hcases with ⟨-, rfl⟩ | ⟨-, rfl⟩ | ⟨-, rfl⟩
    · exact hqueue.shrink hs fun _ => id
    · exact hqueue
    · exact (hqueue.of_sessions_eq (y := ({ x with queue } : Exchange).removeRoute task.id)
        rfl).shrink hs fun _ => id

theorem ResultsIn.submit (h : x.ResultsIn P) {party : Party} {r : TaskResult} (hr : P r) :
    (x.submit party r).2.ResultsIn P := by
  cases hsubmit : x.submit party r with
  | mk answer next =>
      rcases submit_cases hsubmit with ⟨-, -, rfl⟩ | ⟨s, -, ⟨-, -, rfl⟩ |
        ⟨session, sending, results, hs, hoffer, -, rfl⟩⟩
      · exact h
      · exact h.of_sessions_eq rfl
      · refine (h.of_sessions_eq (y := x.removeRoute r.id) rfl).setSession hs fun r' hr' => ?_
        rcases List.mem_cons.mp (Channel.offer_contents_subset hoffer hr') with rfl | hold
        · exact hr
        · exact h s session hs r' hold

theorem ResultsIn.receive (h : x.ResultsIn P) {received : Received}
    (hreceive : x.receive s = (received, x')) :
    x'.ResultsIn P ∧ ∀ r, received = .result r → P r := by
  rcases receive_cases hreceive with ⟨hnone, rfl⟩ | ⟨session, r, results, hs, rfl, htake, rfl⟩
  · exact ⟨h, fun r hr => absurd hr (hnone r)⟩
  · have hcontents := h s session hs
    rw [Channel.take?_contents htake] at hcontents
    refine ⟨h.setSession hs fun r' hr' => hcontents r' (List.mem_cons_of_mem _ hr'), ?_⟩
    rintro r' hr'
    cases hr'
    exact hcontents r List.mem_cons_self

/-- A deal leaves no results in an exchange but those that were there and the one it submits. -/
theorem ResultsIn.deal (h : x.ResultsIn P) (hsubmit : ∀ party r, d = .submit party r → P r)
    (hdeal : x.deal? d = some x') : x'.ResultsIn P := by
  cases d with
  | openSession =>
      obtain rfl := Option.some.inj hdeal
      intro s found hfound
      rcases openSession_cases hfound with ⟨-, rfl⟩ | hold
      · exact fun r hr => nomatch hr
      · exact h s found hold
  | send s party task =>
      obtain rfl := Option.some.inj hdeal
      cases hsend : x.send s party task with
      | mk sending next =>
          rcases send_cases hsend with ⟨-, rfl, -⟩ | ⟨session, tasks, hs, -, -, rfl⟩
          · exact h
          · exact h.shrink hs fun _ => id
  | resumeSend s party =>
      obtain ⟨⟨sending, next⟩, hsend, rfl⟩ := Option.map_eq_some_iff.mp hdeal
      obtain ⟨session, tasks, hs, -, rfl⟩ := resumeSend?_cases hsend
      exact h.shrink hs fun _ => id
  | withdrawSend s party =>
      obtain rfl := Option.some.inj hdeal
      unfold withdrawSend
      split
      · exact h
      · next session hs => exact h.shrink hs fun _ => id
  | dropTasks s =>
      obtain rfl := Option.some.inj hdeal
      unfold dropTasks
      split
      · exact h
      · next session hs => exact h.shrink hs fun _ => id
  | relay s => exact h.relayStep hdeal
  | startFetch party | leaveLine party =>
      obtain rfl := Option.some.inj hdeal
      exact h.of_sessions_eq rfl
  | fetch party now =>
      obtain ⟨⟨reply, next⟩, hfetch, rfl⟩ := Option.map_eq_some_iff.mp hdeal
      exact h.of_sessions_eq (fetches_of_fetchStep? hfetch).sessions_eq
  | submit party r =>
      obtain rfl := Option.some.inj hdeal
      exact h.submit (hsubmit party r rfl)
  | resumeSubmit s party id =>
      obtain ⟨⟨answer, next⟩, hresume, rfl⟩ := Option.map_eq_some_iff.mp hdeal
      obtain ⟨session, sending, results, hs, hresults, -, rfl⟩ := resumeSubmit?_cases hresume
      exact h.shrink hs (Channel.resume?_contents_subset hresults)
  | receive s =>
      obtain rfl := Option.some.inj hdeal
      exact (h.receive (Prod.eta (x.receive s)).symm).1
  | dropResults s =>
      obtain rfl := Option.some.inj hdeal
      unfold dropResults
      split
      · exact h
      · next session hs => exact h.shrink hs (Channel.contents_discard_subset _)
  | close =>
      obtain rfl := Option.some.inj hdeal
      unfold close
      simp only
      split
      · exact h.of_sessions_eq (by rw [closeQueueIfClosed_queue])
      · exact h.of_sessions_eq rfl

/-! ## Tasks -/

/-- A task that is refused does not come in. -/
theorem Carries.attemptSend_refused (h : x.Carries genuine) {party : Party} {task : Task}
    (hsend : x.attemptSend? s party task = some (.refused, x')) : x'.Carries genuine := by
  unfold attemptSend? at hsend
  split at hsend
  · exact (resumeSend?_spec h hsend).1
  · rcases send_cases (Option.some.inj hsend) with
      ⟨-, rfl, -⟩ | ⟨session, tasks, hs, -, hoffer, rfl⟩
    · exact h
    · rcases Channel.offer_cases hoffer with ⟨-, -, rfl⟩ | ⟨hsending, -⟩ | ⟨hsending, -⟩
      · exact (setTasks h hs (h.sessions s session hs).tasks rfl).1
      · cases hsending
      · cases hsending

theorem carries_close (h : x.Carries genuine) : x.close.Carries genuine := by
  unfold close
  simp only
  split
  · obtain ⟨queue, heq, hbuffer, hpending, -⟩ := closeQueueIfClosed_eq { x with closed := true }
    rw [heq]
    refine ⟨?_, h.sessions⟩
    simp only [Channel.contents, hbuffer, hpending]
    exact h.queue
  · exact ⟨h.queue, h.sessions⟩

/-- A deal leaves no tasks in an exchange but those that were there and the one it sends. -/
theorem Carries.deal (h : x.Carries genuine)
    (hsend : ∀ s party task, d = .send s party task → genuine task)
    (hsubmit : ∀ party r, d = .submit party r → ∃ task, genuine task ∧ r = task.result)
    (hdeal : x.deal? d = some x') : x'.Carries genuine := by
  cases d with
  | openSession => exact Option.some.inj hdeal ▸ carries_openSession h
  | send s party task =>
      exact Option.some.inj hdeal ▸ (send_spec h (hsend s party task rfl)
        (Prod.eta (x.send s party task)).symm).1
  | resumeSend s party =>
      obtain ⟨⟨sending, next⟩, hresume, rfl⟩ := Option.map_eq_some_iff.mp hdeal
      exact (resumeSend?_spec h hresume).1
  | withdrawSend s party => exact Option.some.inj hdeal ▸ (withdrawSend_spec h s party).1
  | dropTasks s => exact Option.some.inj hdeal ▸ carries_dropTasks h s
  | relay s => exact (relayStep?_spec h hdeal).1
  | startFetch party | leaveLine party =>
      obtain rfl := Option.some.inj hdeal
      exact ⟨h.queue, h.sessions⟩
  | fetch party now =>
      obtain ⟨⟨reply, next⟩, hfetch, rfl⟩ := Option.map_eq_some_iff.mp hdeal
      exact ((fetches_of_fetchStep? hfetch).spec h).1.1
  | submit party r =>
      exact Option.some.inj hdeal ▸ (submit_spec h (hsubmit party r rfl)
        (Prod.eta (x.submit party r)).symm).1
  | resumeSubmit s party id =>
      obtain ⟨⟨answer, next⟩, hresume, rfl⟩ := Option.map_eq_some_iff.mp hdeal
      exact (resumeSubmit?_spec h hresume).1
  | receive s =>
      exact Option.some.inj hdeal ▸ (receive_spec h (Prod.eta (x.receive s)).symm).1.1
  | dropResults s => exact Option.some.inj hdeal ▸ carries_dropResults h s
  | close => exact Option.some.inj hdeal ▸ carries_close h

end TaskFarm.Exchange
