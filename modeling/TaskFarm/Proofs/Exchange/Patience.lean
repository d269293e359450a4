import TaskFarm.Proofs.Exchange.Closing

/-!
# How long a fetch waits

The time of a fetch at the queue runs from its turn and not from its call.  So a call may take as
long as the turns of all fetches that were in line before it, and one more.  Nobody sleeps through
the end of a turn: time passes at most up to the moment at which the fetch at the queue gives up.
-/

namespace TaskFarm

/-- A fetch that was made at some time, with a number of others in line before it. -/
structure Call where
  party : Party
  madeAt : Nat
  ahead : Nat

/-- The time by which a call is answered if no turn takes longer than the timeout. -/
def Call.latest (timeout : Nat) (call : Call) : Nat :=
  call.madeAt + (call.ahead + 1) * timeout

/-- A call with its answer and the time of the answer. -/
structure Return where
  call : Call
  reply : FetchReply
  time : Nat

/-- Turns under a clock with the calls of the fetches in line, and those that were answered. -/
structure Watched extends Clocked where
  calls : List Call
  returns : List Return

namespace Watched

def opened (settings : QueueSettings) : Watched :=
  { Clocked.opened settings with calls := [], returns := [] }

def callsWithout (w : Watched) (party : Party) : List Call :=
  w.calls.filter fun call => !(call.party == party)

/-- Calls and returns after a turn. -/
def note (w : Watched) : Turn → List Call × List Return
  | .outside (.startFetch party) =>
    (w.calls ++ [⟨party, w.now, w.exchange.line.length⟩], w.returns)
  | .outside (.leaveLine party) => (w.callsWithout party, w.returns)
  | .fetch party =>
    match w.exchange.fetchStep? party w.now with
    | some (some reply, _) =>
      (w.callsWithout party, w.returns ++
        (w.calls.find? fun call => call.party == party).toList.map fun call => ⟨call, reply, w.now⟩)
    | _ => (w.calls, w.returns)
  | _ => (w.calls, w.returns)

/-- Time would pass beyond the end of a turn. -/
def oversleeps (w : Watched) : Turn → Bool
  | .wait moment => w.exchange.fetchDeadline?.any fun deadline => deadline < moment
  | _ => false

def turn? (w : Watched) (t : Turn) : Option Watched :=
  if w.oversleeps t then none
  else (w.toClocked.turn? t).map fun c =>
    { toClocked := c, calls := (w.note t).1, returns := (w.note t).2 }

def turns? (w : Watched) : List Turn → Option Watched
  | [] => some w
  | t :: rest => (w.turn? t).bind fun w => w.turns? rest

end Watched

open Exchange

variable {timeout now : Nat} {x x' : Exchange} {party : Party} {d : Deal} {calls : List Call}
  {settings : QueueSettings}

/-! ## Calls one after the other -/

/-- The first call is answered by a time, and each further one by a timeout later. -/
inductive InTurn (timeout : Nat) : Nat → List Call → Prop
  | nil (time : Nat) : InTurn timeout time []
  | cons {time : Nat} {call : Call} {calls : List Call} (hcall : time ≤ call.latest timeout)
      (hrest : InTurn timeout (time + timeout) calls) : InTurn timeout time (call :: calls)

namespace InTurn

variable {time time' : Nat} {calls' : List Call} {call : Call}

theorem mono (h : InTurn timeout time calls) (hle : time' ≤ time) : InTurn timeout time' calls := by
  induction h generalizing time' with
  | nil => exact .nil time'
  | cons hcall _ ih => exact .cons (Nat.le_trans hle hcall) (ih (Nat.add_le_add_right hle timeout))

theorem sublist (h : InTurn timeout time calls) (hsublist : calls'.Sublist calls) :
    InTurn timeout time calls' := by
  induction hsublist generalizing time with
  | slnil => exact h
  | cons call _ ih =>
      cases h with
      | cons _ hrest => exact ih (hrest.mono (Nat.le_add_right time timeout))
  | cons_cons call _ ih =>
      cases h with
      | cons hcall hrest => exact .cons hcall (ih hrest)

theorem append (h : InTurn timeout time calls)
    (hcall : time + calls.length * timeout ≤ call.latest timeout) :
    InTurn timeout time (calls ++ [call]) := by
  induction h with
  | nil => exact .cons (by simpa using hcall) (.nil _)
  | @cons time _ calls hfirst _ ih =>
      refine .cons hfirst (ih ?_)
      rw [List.length_cons, Nat.succ_mul] at hcall
      omega

theorem le_latest (h : InTurn timeout time calls) (hmem : call ∈ calls) :
    time ≤ call.latest timeout := by
  induction h with
  | nil => cases hmem
  | cons hcall _ ih =>
      rcases List.mem_cons.mp hmem with rfl | hmem
      · exact hcall
      · exact Nat.le_of_add_right_le (ih hmem)

end InTurn

/-! ## The turn of the first in line -/

namespace Exchange

/-- The time by which the turn of the first in line is over. -/
def turnEnd (timeout now : Nat) : List PendingFetch → Nat
  | ⟨_, .polling deadline⟩ :: _ => deadline
  | _ => now + timeout

theorem turnEnd_of_not_polling {line : List PendingFetch}
    (h : ∀ f ∈ line, ∀ deadline, f.stage ≠ .polling deadline) :
    turnEnd timeout now line = now + timeout := by
  cases line with
  | nil => rfl
  | cons f rest =>
      obtain ⟨party, stage⟩ := f
      cases stage with
      | polling deadline => exact absurd rfl (h _ List.mem_cons_self deadline)
      | inLine | closing => rfl

/-- Somebody who gets in line does not change whose turn it is. -/
theorem turnEnd_append (line : List PendingFetch) (party : Party) :
    turnEnd timeout now (line ++ [⟨party, .inLine⟩]) = turnEnd timeout now line := by
  cases line with
  | nil => rfl
  | cons f rest =>
      obtain ⟨_, stage⟩ := f
      cases stage <;> rfl

/-- A fetch that is answered leaves the line. -/
theorem FetchesAs.answered {f : PendingFetch} {reply : FetchReply}
    (h : FetchesAs x f now (some reply) x') :
    x'.line = x.lineWithout f.party ∧ x'.closed = x.closed := by
  cases h with
  | takes => exact ⟨rfl, rfl⟩
  | leaves => exact ⟨rfl, rfl⟩

/-- A fetch that goes on without an answer begins to wait at the queue, or gets in line to close
it. -/
theorem FetchesAs.unanswered {f : PendingFetch} (h : FetchesAs x f now none x') :
    (x.isFirst f.party = true ∧ f.stage = .inLine ∧
      ∃ timeout, x.settings.fetchTimeout = some timeout ∧
        x' = x.setStage f.party (.polling (now + timeout))) ∨
    (x.closed = true ∧ x' = x.requeue f.party) := by
  cases h with
  | polls hfirst _ _ _ hsettings hstage => exact .inl ⟨hfirst, hstage, _, hsettings, rfl⟩
  | requeues hclosed => exact .inr ⟨hclosed, rfl⟩

/-- When the first in line cannot go on, it waits at the queue and its time is not over. -/
theorem polling_of_fetchStep?_head {f : PendingFetch} {rest : List PendingFetch}
    (hline : x.line = f :: rest) (h : x.fetchStep? f.party now = none) :
    ∃ deadline, f.stage = .polling deadline ∧ now < deadline := by
  have hfirst : x.isFirst f.party = true := isFirst_iff.mpr ⟨f, rest, hline, rfl⟩
  simp only [fetchStep?, fetchOf?_head hline, Option.bind_some] at h
  cases hstage : f.stage with
  | inLine => simp [hstage, hfirst] at h
  | polling deadline =>
      refine ⟨deadline, rfl, ?_⟩
      simp only [hstage] at h
      split at h
      · cases h
      · split at h
        · cases h
        · next hearly => exact Nat.lt_of_not_le hearly
  | closing => simp [hstage, hfirst] at h

/-- Only the first in line goes on in another stage. -/
theorem setStage_head {stage stage' : FetchStage} {rest : List PendingFetch}
    (honce : (x.line.map PendingFetch.party).Nodup) (hline : x.line = ⟨party, stage⟩ :: rest) :
    (x.setStage party stage').line = ⟨party, stage'⟩ :: rest := by
  rw [hline, List.map_cons, List.nodup_cons] at honce
  have hothers : rest.map (fun f => if f.party == party then ⟨party, stage'⟩ else f) = rest := by
    refine (List.map_congr_left fun f hf => ?_).trans (List.map_id rest)
    have hne : f.party ≠ party := fun he => honce.1 (List.mem_map.mpr ⟨f, hf, he⟩)
    simp [hne]
  simpa [setStage, hline] using hothers

end Exchange

/-! ## Calls and the line -/

/-- The calls are those of the fetches in line, and none of them is overdue.  As long as the
exchange is open, they are answered one after the other, each in its turn. -/
structure Serves (timeout : Nat) (closed : Bool) (line : List PendingFetch) (now : Nat)
    (calls : List Call) : Prop where
  parties : (calls.map Call.party).Perm (line.map PendingFetch.party)
  latest : ∀ call ∈ calls, now ≤ call.latest timeout
  inOrder : closed = false → calls.map Call.party = line.map PendingFetch.party
  now_le : closed = false → now ≤ turnEnd timeout now line
  turnEnd_le : closed = false → turnEnd timeout now line ≤ now + timeout
  inTurn : closed = false → InTurn timeout (turnEnd timeout now line) calls

namespace Serves

variable {closed : Bool} {line : List PendingFetch}

/-- While the exchange is open no call is overdue, since each is answered in its turn. -/
theorem of_inTurn (hinOrder : calls.map Call.party = line.map PendingFetch.party)
    (hnow : now ≤ turnEnd timeout now line) (hend : turnEnd timeout now line ≤ now + timeout)
    (hinTurn : InTurn timeout (turnEnd timeout now line) calls) :
    Serves timeout closed line now calls where
  parties := hinOrder ▸ .refl _
  latest _ hmem := Nat.le_trans hnow (hinTurn.le_latest hmem)
  inOrder _ := hinOrder
  now_le _ := hnow
  turnEnd_le _ := hend
  inTurn _ := hinTurn

/-- Once the exchange is closed, turns do not matter any more. -/
theorem of_closed (hparties : (calls.map Call.party).Perm (line.map PendingFetch.party))
    (hlatest : ∀ call ∈ calls, now ≤ call.latest timeout) :
    Serves timeout true line now calls where
  parties := hparties
  latest := hlatest
  inOrder := nofun
  now_le := nofun
  turnEnd_le := nofun
  inTurn := nofun

theorem nil (timeout : Nat) (closed : Bool) (now : Nat) : Serves timeout closed [] now [] :=
  of_inTurn rfl (Nat.le_add_right now timeout) (Nat.le_refl _) (.nil _)

theorem close (h : Serves timeout closed line now calls) : Serves timeout true line now calls :=
  of_closed h.parties h.latest

theorem closes {closed' : Bool} (h : Serves timeout closed line now calls)
    (hclosed : closed = true → closed' = true) : Serves timeout closed' line now calls := by
  cases closed' with
  | true => exact h.close
  | false =>
      cases closed with
      | true => cases hclosed rfl
      | false => exact h

/-- Somebody who calls is behind everybody in line. -/
theorem startFetch (h : Serves timeout closed line now calls) (party : Party) :
    Serves timeout closed (line ++ [⟨party, .inLine⟩]) now
      (calls ++ [⟨party, now, line.length⟩]) := by
  have hlength : calls.length = line.length := by simpa using h.parties.length_eq
  cases closed with
  | true =>
      refine of_closed (by simpa using h.parties.append_right [party]) fun call hmem => ?_
      rcases List.mem_append.mp hmem with hmem | hmem
      · exact h.latest call hmem
      · rw [List.mem_singleton.mp hmem]
        exact Nat.le_add_right now _
  | false =>
      have hend := h.turnEnd_le rfl
      refine of_inTurn (by simp [h.inOrder rfl]) ?_ ?_ ?_
      · rw [turnEnd_append]
        exact h.now_le rfl
      · rwa [turnEnd_append]
      · rw [turnEnd_append]
        refine (h.inTurn rfl).append ?_
        simp only [Call.latest, hlength, Nat.succ_mul]
        omega

/-- Somebody leaves the line, answered or not.  If it was at the queue, the next turn begins. -/
theorem leave (h : Serves timeout closed line now calls) (party : Party)
    (hnext : ∀ f rest, line = f :: rest → f.party = party →
      ∀ g ∈ line.filter (fun g => !(g.party == party)), ∀ deadline, g.stage ≠ .polling deadline) :
    Serves timeout closed (line.filter fun f => !(f.party == party)) now
      (calls.filter fun call => !(call.party == party)) := by
  have hcalls : (calls.filter fun call => !(call.party == party)).map Call.party =
      (calls.map Call.party).filter fun p => !(p == party) := by
    rw [List.filter_map]
    rfl
  have hline : (line.filter fun f => !(f.party == party)).map PendingFetch.party =
      (line.map PendingFetch.party).filter fun p => !(p == party) := by
    rw [List.filter_map]
    rfl
  cases closed with
  | true =>
      refine of_closed ?_ fun call hmem => h.latest call (List.mem_of_mem_filter hmem)
      rw [hcalls, hline]
      exact h.parties.filter _
  | false =>
      have hinOrder := h.inOrder rfl
      have hnow := h.now_le rfl
      have hend := h.turnEnd_le rfl
      have hinTurn := h.inTurn rfl
      have hsame : (calls.filter fun call => !(call.party == party)).map Call.party =
          (line.filter fun f => !(f.party == party)).map PendingFetch.party := by
        rw [hcalls, hline, hinOrder]
      cases line with
      | nil => exact of_inTurn hsame hnow hend (hinTurn.sublist List.filter_sublist)
      | cons f rest =>
          by_cases he : f.party = party
          · have hturn : turnEnd timeout now ((f :: rest).filter fun g => !(g.party == party)) =
                now + timeout := turnEnd_of_not_polling (hnext f rest rfl he)
            cases hinTurn with
            | nil => cases hinOrder
            | @cons _ call others _ hrest =>
                have hfirst : call.party = party := (List.cons.inj hinOrder).1.trans he
                have hothers : (call :: others).filter (fun call => !(call.party == party)) =
                    others.filter fun call => !(call.party == party) := by
                  simp [hfirst]
                refine of_inTurn hsame (hturn ▸ Nat.le_add_right now timeout)
                  (Nat.le_of_eq hturn) ?_
                rw [hturn, hothers]
                exact (hrest.mono (Nat.add_le_add_right hnow timeout)).sublist List.filter_sublist
          · have hkept : (f :: rest).filter (fun g => !(g.party == party)) =
                f :: rest.filter fun g => !(g.party == party) := by
              simp [he]
            rw [hkept] at hsame ⊢
            have hturn : turnEnd timeout now (f :: rest.filter fun g => !(g.party == party)) =
                turnEnd timeout now (f :: rest) := by
              obtain ⟨_, stage⟩ := f
              cases stage <;> rfl
            exact of_inTurn hsame (hturn ▸ hnow) (hturn ▸ hend)
              (hturn ▸ hinTurn.sublist List.filter_sublist)

/-- The first in line finds no task and begins to wait for one. -/
theorem poll {rest : List PendingFetch}
    (h : Serves timeout closed (⟨party, .inLine⟩ :: rest) now calls) :
    Serves timeout closed (⟨party, .polling (now + timeout)⟩ :: rest) now calls where
  parties := h.parties
  latest := h.latest
  inOrder := h.inOrder
  now_le _ := Nat.le_add_right now timeout
  turnEnd_le _ := Nat.le_refl _
  inTurn := h.inTurn

/-- Time passes while the first in line waits, at most up to the end of its turn. -/
theorem wait {moment : Nat} (h : Serves timeout closed line now calls) (hlt : now < moment)
    (hclosed : closed = true → line = [])
    (hpolling : ∀ f rest, line = f :: rest →
      ∃ deadline, f.stage = .polling deadline ∧ moment ≤ deadline) :
    Serves timeout closed line moment calls := by
  cases line with
  | nil =>
      obtain rfl : calls = [] := by simpa using h.parties
      exact .nil timeout closed moment
  | cons f rest =>
      cases closed with
      | true => cases hclosed rfl
      | false =>
          obtain ⟨deadline, hstage, hle⟩ := hpolling f rest rfl
          have hturn : ∀ time, turnEnd timeout time (f :: rest) = deadline := by
            intro time
            obtain ⟨_, _⟩ := f
            cases hstage
            rfl
          have hend := h.turnEnd_le rfl
          have hinTurn := h.inTurn rfl
          rw [hturn] at hend hinTurn
          refine of_inTurn (h.inOrder rfl) ?_ ?_ ?_
          · rwa [hturn]
          · rw [hturn]
            omega
          · rwa [hturn]

/-- Whoever is in line has called. -/
theorem exists_call {f : PendingFetch} (h : Serves timeout closed line now calls) (hf : f ∈ line) :
    ∃ call ∈ calls, call.party = f.party :=
  List.mem_map.mp (h.parties.mem_iff.mpr (List.mem_map_of_mem hf))

theorem exists_find?_call {f : PendingFetch} (h : Serves timeout closed x.line now calls)
    (hf : x.fetchOf? party = some f) :
    ∃ call, (calls.find? fun call => call.party == party) = some call ∧ call ∈ calls ∧
      call.party = party := by
  obtain ⟨hmem, rfl⟩ := fetchOf?_some hf
  obtain ⟨call, hcall, hparty⟩ := h.exists_call hmem
  cases hfind : calls.find? fun call => call.party == f.party with
  | none => exact absurd (List.find?_eq_none.mp hfind call hcall) (by simp [hparty])
  | some found =>
      exact ⟨found, rfl, List.mem_of_find?_eq_some hfind, by simpa using List.find?_some hfind⟩

end Serves

/-! ## What turns keep -/

/-- A turn changes no settings, and opens no closed exchange. -/
theorem Clocked.exchange_turn? {c c' : Clocked} {t : Turn} (h : c.turn? t = some c') :
    c'.exchange.settings = c.exchange.settings ∧
      (c.exchange.closed = true → c'.exchange.closed = true) := by
  have hdeals : ∀ {j j' : Journaled} {deals : List Deal}, j.deals? deals = some j' →
      j'.exchange.settings = j.exchange.settings ∧
        (j.exchange.closed = true → j'.exchange.closed = true) := by
    intro j j' deals hdeals
    induction deals generalizing j with
    | nil =>
        cases hdeals
        exact ⟨rfl, id⟩
    | cons d rest ih =>
        obtain ⟨next, hdeal, hrest⟩ := Option.bind_eq_some_iff.mp hdeals
        have hframes := frames_deal? (Journaled.exchange_of_deal? hdeal)
        obtain ⟨hsettings, hclosed⟩ := ih hrest
        exact ⟨hsettings.trans hframes.settings, hclosed ∘ hframes.closed⟩
  obtain ⟨deals, hturn⟩ := deals_of_turn? h
  exact hdeals hturn

namespace Watched

variable {capacity : Nat} {w w' : Watched} {t : Turn}

/-- The calls fit the line, and those that were answered were so in time. -/
structure Patient (timeout : Nat) (w : Watched) : Prop where
  settings : w.exchange.settings.fetchTimeout = some timeout
  serves : Serves timeout w.exchange.closed w.exchange.line w.now w.calls
  answers : w.returns.map (fun r => (r.call.party, r.reply)) = w.answers
  returns : ∀ r ∈ w.returns, r.time ≤ r.call.latest timeout

theorem patient_opened (hsettings : settings.fetchTimeout = some timeout) :
    (opened settings).Patient timeout where
  settings := hsettings
  serves := .nil timeout false 0
  answers := rfl
  returns := nofun

/-- A watched turn is a turn, and time does not pass beyond the end of the turn of a fetch. -/
theorem turn?_eq_some (h : w.turn? t = some w') :
    w.oversleeps t = false ∧ w.toClocked.turn? t = some w'.toClocked ∧
      w'.calls = (w.note t).1 ∧ w'.returns = (w.note t).2 := by
  unfold turn? at h
  split at h
  · cases h
  · next hawake =>
    obtain ⟨c, hturn, rfl⟩ := Option.map_eq_some_iff.mp h
    exact ⟨Bool.eq_false_iff.mpr hawake, hturn, rfl, rfl⟩

/-- The calls fit the line after a deal that is neither a step of a relay nor one of a fetch. -/
theorem serves_outside {c' : Clocked} (h : w.Patient timeout) (hinOrder : w.InOrder capacity)
    (hadmits : w.admits d = true) (hdeal : w.deal? d = some c'.toJournaled)
    (hclosed : w.exchange.closed = true → c'.exchange.closed = true) :
    Serves timeout c'.exchange.closed c'.exchange.line w.now (w.note (.outside d)).1 := by
  have hline := (frames_deal? (Journaled.exchange_of_deal? hdeal)).line
  have hserves := h.serves.closes hclosed
  cases d with
  | startFetch party =>
      rw [hline nofun]
      exact hserves.startFetch party
  | leaveLine party =>
      rw [hline nofun]
      refine hserves.leave party fun f rest hfirst hparty g hg => ?_
      exact hinOrder.orderly.not_polling (isFirst_iff.mpr ⟨f, rest, hfirst, hparty⟩) hg
  | relay | fetch => cases hadmits
  | openSession | send | resumeSend | withdrawSend | dropTasks | submit | resumeSubmit | receive
  | dropResults | close =>
      rw [hline nofun]
      exact hserves

/-- The calls fit the line after a step of a fetch. -/
theorem serves_fetch {c' : Clocked} {reply : Option FetchReply} (h : w.Patient timeout)
    (hinOrder : w.InOrder capacity)
    (hfetch : w.exchange.fetchStep? party w.now = some (reply, c'.exchange)) :
    Serves timeout c'.exchange.closed c'.exchange.line w.now (w.note (.fetch party)).1 := by
  obtain ⟨f, hf, rfl, hfetches⟩ := fetchStep?_cases hfetch
  cases reply with
  | some reply =>
      obtain ⟨hline, hclosed⟩ := hfetches.answered
      have hcalls : (w.note (.fetch f.party)).1 = w.callsWithout f.party := by simp [note, hfetch]
      rw [hline, hclosed, hcalls]
      refine h.serves.leave f.party fun first rest hfirst hparty g hg => ?_
      exact hinOrder.orderly.not_polling (isFirst_iff.mpr ⟨first, rest, hfirst, hparty⟩) hg
  | none =>
      have hcalls : (w.note (.fetch f.party)).1 = w.calls := by simp [note, hfetch]
      rw [hcalls]
      rcases hfetches.unanswered with ⟨hfirst, hstage, timeout', hsettings, heq⟩ | ⟨hclosed, heq⟩
      · obtain ⟨first, rest, hline, hparty⟩ := isFirst_iff.mp hfirst
        obtain rfl : first = f := by
          rw [← hparty, fetchOf?_head hline] at hf
          exact Option.some.inj hf
        obtain ⟨party, stage⟩ := first
        obtain rfl : stage = .inLine := hstage
        obtain rfl := Option.some.inj (h.settings.symm.trans hsettings)
        have hserves := h.serves
        rw [hline] at hserves
        rw [heq, setStage_head hinOrder.orderly.lineOnce hline]
        exact hserves.poll
      · have hafter : c'.exchange.closed = true := by rw [heq]; exact hclosed
        rw [hafter]
        refine .of_closed (h.serves.parties.trans ?_) h.serves.latest
        have hperm := (lineWithout_perm hinOrder.orderly.lineOnce (fetchOf?_some hf).1).map
          PendingFetch.party
        rw [heq]
        refine hperm.trans ?_
        simpa [requeue] using (List.perm_append_singleton _ _).symm

theorem Patient.turn (h : w.Patient timeout) (hinOrder : w.InOrder capacity)
    (hturn : w.turn? t = some w') : w'.Patient timeout := by
  obtain ⟨hawake, hclocked, hcalls, hreturns⟩ := turn?_eq_some hturn
  obtain ⟨hsettings, hclosed⟩ := Clocked.exchange_turn? hclocked
  have hkept : (w.note t).2 = w.returns → w'.answers = w.answers →
      Serves timeout w'.exchange.closed w'.exchange.line w'.now w'.calls →
      w'.Patient timeout := by
    intro hnoted hanswers hserves
    rw [hnoted] at hreturns
    refine ⟨hsettings ▸ h.settings, hserves, ?_, ?_⟩
    · rw [hreturns, hanswers]
      exact h.answers
    · rw [hreturns]
      exact h.returns
  rcases Clocked.turn?_cases hclocked with ⟨d, rfl, hadmits, hdeal, hnow, hanswers⟩ |
    ⟨s, rfl, hrelay, hnow, hanswers⟩ | ⟨party, reply, rfl, hfetch, -, hnow, hanswers⟩ |
    ⟨moment, rfl, hquiet, hlt, hwaited⟩
  · refine hkept (by cases d <;> rfl) hanswers ?_
    rw [hnow, hcalls]
    exact serves_outside h hinOrder hadmits hdeal hclosed
  · refine hkept rfl hanswers ?_
    rw [hnow, hcalls, Journaled.line_relayTurn? hrelay]
    exact h.serves.closes hclosed
  · have hserves := serves_fetch h hinOrder hfetch
    rw [← hcalls, ← hnow] at hserves
    cases reply with
    | none => exact hkept (by simp [note, hfetch]) (by simpa using hanswers) hserves
    | some reply =>
        obtain ⟨f, hf, -, -⟩ := fetchStep?_cases hfetch
        obtain ⟨call, hfind, hmem, hparty⟩ := h.serves.exists_find?_call hf
        have hnoted : (w.note (.fetch party)).2 = w.returns ++ [⟨call, reply, w.now⟩] := by
          simp [note, hfetch, hfind]
        rw [hnoted] at hreturns
        refine ⟨hsettings ▸ h.settings, hserves, ?_, ?_⟩
        · rw [hreturns, hanswers]
          simp [h.answers, hparty]
        · rw [hreturns]
          intro r hr
          rcases List.mem_append.mp hr with hr | hr
          · exact h.returns r hr
          · rw [List.mem_singleton.mp hr]
            exact h.serves.latest call hmem
  · obtain ⟨-, hfetches⟩ := Clocked.quiet_of_isQuiet hquiet
    refine hkept rfl (by rw [hwaited]) ?_
    rw [hwaited, hcalls]
    refine h.serves.wait hlt (fun hclosed => ?_) fun f rest hline => ?_
    · cases hline : w.exchange.line with
      | nil => rfl
      | cons f rest =>
          have hwaits := hfetches f (hline ▸ List.mem_cons_self)
          exact absurd hwaits (fetchStep?_head_ne_none hline hclosed w.now)
    · have hwaits := hfetches f (hline ▸ List.mem_cons_self)
      obtain ⟨deadline, hstage, -⟩ := polling_of_fetchStep?_head hline hwaits
      have hdeadline : w.exchange.fetchDeadline? = some deadline := by
        simp [fetchDeadline?, hline, hstage]
      refine ⟨deadline, hstage, ?_⟩
      simpa [oversleeps, hdeadline] using hawake

theorem Patient.turns {turns : List Turn} (h : w.Patient timeout) (hinOrder : w.InOrder capacity)
    (hturns : w.turns? turns = some w') : w'.Patient timeout := by
  induction turns generalizing w with
  | nil =>
      cases hturns
      exact h
  | cons t rest ih =>
      obtain ⟨next, hturn, hrest⟩ := Option.bind_eq_some_iff.mp hturns
      exact ih (h.turn hinOrder hturn) (hinOrder.turn (turn?_eq_some hturn).2.1) hrest

/-! ## The law of waiting -/

/-- Every fetch in line was called no longer ago than the turns of those that were in line before it
and its own may take, and every answer was given within that time. -/
structure AnswersInTurn (timeout : Nat) (w : Watched) : Prop where
  pending : ∀ f ∈ w.exchange.line, ∃ call ∈ w.calls, call.party = f.party ∧
    w.now ≤ call.madeAt + (call.ahead + 1) * timeout
  answers : w.returns.map (fun r => (r.call.party, r.reply)) = w.answers
  returns : ∀ r ∈ w.returns, r.time ≤ r.call.madeAt + (r.call.ahead + 1) * timeout

/-- Under whatever turns are taken, a fetch waits no longer than the fetches that were in line when
it was called, and itself, may each take for their turn; one that nobody was before waits no longer
than the timeout. -/
theorem turns?_answersInTurn {turns : List Turn} (hsettings : settings.fetchTimeout = some timeout)
    (hturns : (opened settings).turns? turns = some w) : w.AnswersInTurn timeout := by
  have hpatient := (patient_opened hsettings).turns (Clocked.inOrder_opened settings) hturns
  refine ⟨fun f hf => ?_, hpatient.answers, hpatient.returns⟩
  obtain ⟨call, hcall, hsame⟩ := hpatient.serves.exists_call hf
  exact ⟨call, hcall, hsame, hpatient.serves.latest call hcall⟩

/-- One fetch waits for a task at the queue and another one behind it.  The turn of the second one
begins when the time of the first one is over, and a task comes before its own is. -/
theorem turns?_answersInTurn_pair :
    ∃ w, (opened ⟨1, some 5⟩).turns?
        [.outside .openSession, .outside (.startFetch 1), .fetch 1, .wait 2,
          .outside (.startFetch 2), .wait 5, .fetch 1, .fetch 2, .wait 8,
          .outside (.send 0 7 (.make ⟨7⟩ .add 1.0 1.0 0)), .relay 0, .fetch 2] = some w ∧
      w.returns.map (fun r => (r.call.party, r.call.madeAt, r.call.ahead, r.time)) =
        [(1, 0, 0, 5), (2, 2, 1, 8)] ∧ w.AnswersInTurn 5 := by
  generalize hrun : (opened ⟨1, some 5⟩).turns? _ = run
  have hreturns : ∃ w, run = some w ∧
      w.returns.map (fun r => (r.call.party, r.call.madeAt, r.call.ahead, r.time)) =
        [(1, 0, 0, 5), (2, 2, 1, 8)] := by
    subst hrun
    exact ⟨_, rfl, rfl⟩
  obtain ⟨w, rfl, hreturns⟩ := hreturns
  exact ⟨w, rfl, hreturns, turns?_answersInTurn rfl hrun⟩

/-- A fetch that was second in line is still pending nearly twice the timeout after its call, and
nobody can go on. -/
theorem turns?_overdue :
    ∃ w call, (opened ⟨1, some 5⟩).turns?
        [.outside (.startFetch 1), .fetch 1, .outside (.startFetch 2), .wait 5, .fetch 1, .fetch 2,
          .wait 9] = some w ∧
      call ∈ w.calls ∧ w.exchange.fetchOf? call.party = some ⟨call.party, .polling 10⟩ ∧
      w.isQuiet = true ∧ call.madeAt + 5 < w.now :=
  ⟨_, ⟨2, 0, 1⟩, rfl, List.mem_singleton_self _, rfl, rfl, by decide⟩

end Watched

end TaskFarm
