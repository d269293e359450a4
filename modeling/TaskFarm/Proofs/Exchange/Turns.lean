import TaskFarm.Proofs.Exchange.Fifo

/-!
# Turns under a clock

Deals may be mixed in any way.  Where it matters what comes between two of them, a history is made
of turns: whoever goes on does so until it has to wait.  A relay that takes a task brings it to the
queue at once, and time passes only when no relay and no fetch can go on.

The answers given to fetches are noted besides the journal.
-/

namespace TaskFarm

/-- A relay goes on, and brings a task that it takes to the queue at once. -/
def Journaled.relayTurn? (j : Journaled) (s : SessionId) : Option Journaled :=
  (j.deal? (.relay s)).map fun next =>
    match j.exchange.relay? s, next.exchange.relay? s with
    | some .idle, some (.holding _) => (next.deal? (.relay s)).getD next
    | _, _ => next

/-- An exchange with its journal at a time. -/
structure Clocked extends Journaled where
  now : Nat
  /-- The answers given to fetches, the oldest first. -/
  answers : List (Party × FetchReply)

inductive Turn where
  /-- Somebody outside deals with the exchange. -/
  | outside (d : Deal)
  | relay (s : SessionId)
  | fetch (party : Party)
  /-- Time passes up to a moment. -/
  | wait (moment : Nat)

namespace Clocked

def opened (settings : QueueSettings) : Clocked :=
  { Journaled.opened settings with now := 0, answers := [] }

/-- Relays and fetches go on in turns of their own, and nobody fetches twice at a time. -/
def admits (c : Clocked) : Deal → Bool
  | .relay _ | .fetch _ _ => false
  | .startFetch party => (c.exchange.fetchOf? party).isNone
  | _ => true

/-- No relay and no fetch can go on. -/
def isQuiet (c : Clocked) : Bool :=
  ((List.range c.exchange.sessions.size).all fun s => (c.exchange.relayStep? s).isNone) &&
    c.exchange.line.all fun f => (c.exchange.fetchStep? f.party c.now).isNone

def noteAnswer (c : Clocked) (party : Party) (reply : Option FetchReply) : Clocked :=
  { c with answers := c.answers ++ reply.toList.map fun reply => (party, reply) }

def turn? (c : Clocked) : Turn → Option Clocked
  | .outside d =>
    if c.admits d then (c.deal? d).map fun j => { c with toJournaled := j } else none
  | .relay s => (c.relayTurn? s).map fun j => { c with toJournaled := j }
  | .fetch party =>
    (c.exchange.fetchStep? party c.now).bind fun (reply, _) =>
      (c.deal? (.fetch party c.now)).map fun j =>
        { c with toJournaled := j }.noteAnswer party reply
  | .wait moment => if c.isQuiet && c.now < moment then some { c with now := moment } else none

def turns? (c : Clocked) : List Turn → Option Clocked
  | [] => some c
  | t :: rest => (c.turn? t).bind fun c => c.turns? rest

end Clocked

open Exchange

variable {capacity : Nat} {j j' : Journaled} {x x' : Exchange} {s : SessionId} {task : Task}
  {party : Party} {d : Deal} {now : Nat}

/-! ## The line for the queue -/

namespace Exchange

theorem isFirst_iff : x.isFirst party = true ↔ ∃ f rest, x.line = f :: rest ∧ f.party = party := by
  unfold isFirst
  cases hline : x.line with
  | nil => simp
  | cons f rest => simp

theorem fetchOf?_some {f : PendingFetch} (h : x.fetchOf? party = some f) :
    f ∈ x.line ∧ f.party = party :=
  ⟨List.mem_of_find?_eq_some h, by simpa using List.find?_some h⟩

theorem mem_lineWithout {f : PendingFetch} :
    f ∈ x.lineWithout party ↔ f ∈ x.line ∧ f.party ≠ party := by
  simp [lineWithout]

/-- The first in line stays first when somebody else leaves. -/
theorem isFirst_lineWithout {party' : Party} (rest : List PendingFetch)
    (hfirst : x.isFirst party = true) (hne : party ≠ party')
    (hline : x'.line = x.lineWithout party' ++ rest) : x'.isFirst party = true := by
  obtain ⟨f, others, hf, hparty⟩ := isFirst_iff.mp hfirst
  refine isFirst_iff.mpr ⟨f, others.filter (fun g => !(g.party == party')) ++ rest, ?_, hparty⟩
  have hkept : (f.party == party') = false := by simpa [hparty] using hne
  simp [hline, lineWithout, hf, hkept]

/-- The line after a deal that is not a step of a fetch. -/
def lineAfter (x : Exchange) : Deal → List PendingFetch
  | .startFetch party => x.line ++ [⟨party, .inLine⟩]
  | .leaveLine party => x.lineWithout party
  | _ => x.line

/-- What a deal leaves of an exchange besides its tasks. -/
structure Frames (x : Exchange) (d : Deal) (x' : Exchange) : Prop where
  line : (∀ party now, d ≠ .fetch party now) → x'.line = x.lineAfter d
  closed : x.closed = true → x'.closed = true
  /-- A closed exchange notes no route. -/
  routes : x.closed = true → x'.routes.Sublist x.routes
  settings : x'.settings = x.settings

theorem frames_of_eq (hline : x'.line = x.lineAfter d) (hclosed : x'.closed = x.closed)
    (hroutes : x'.routes.Sublist x.routes) (hsettings : x'.settings = x.settings) :
    Frames x d x' where
  line _ := hline
  closed := hclosed.trans
  routes _ := hroutes
  settings := hsettings

theorem frames_deal? (h : x.deal? d = some x') : Frames x d x' := by
  cases d with
  | openSession | startFetch | leaveLine =>
      rw [← Option.some.inj h]
      exact frames_of_eq rfl rfl (List.Sublist.refl _) rfl
  | send s party task =>
      rw [← Option.some.inj h]
      cases hsend : x.send s party task with
      | mk sending next =>
        rcases send_cases hsend with ⟨-, rfl, -⟩ | ⟨session, tasks, -, -, -, rfl⟩
        · exact frames_of_eq rfl rfl (List.Sublist.refl _) rfl
        · exact frames_of_eq rfl rfl (List.Sublist.refl _) rfl
  | resumeSend s party =>
      obtain ⟨⟨sending, next⟩, hsend, rfl⟩ := Option.map_eq_some_iff.mp h
      obtain ⟨session, tasks, -, -, rfl⟩ := resumeSend?_cases hsend
      exact frames_of_eq rfl rfl (List.Sublist.refl _) rfl
  | withdrawSend s party =>
      rw [← Option.some.inj h, withdrawSend]
      split <;> exact frames_of_eq rfl rfl (List.Sublist.refl _) rfl
  | dropTasks s =>
      rw [← Option.some.inj h, dropTasks]
      split <;> exact frames_of_eq rfl rfl (List.Sublist.refl _) rfl
  | relay s =>
      obtain ⟨session, -, ⟨-, htakes⟩ | ⟨task, -, hputs⟩⟩ := relayStep?_cases h
      · rcases relayTakes?_cases htakes with ⟨_, _, -, hopen, rfl⟩ | ⟨_, -, -, rfl⟩
        exact ⟨fun _ => rfl, id, fun hclosed => (by cases hopen.symm.trans hclosed), rfl⟩
        · exact frames_of_eq rfl rfl (List.Sublist.refl _) rfl
      · obtain ⟨_, _, -, ⟨-, rfl⟩ | ⟨-, rfl⟩ | ⟨-, rfl⟩⟩ := relayPuts?_cases hputs
        · exact frames_of_eq rfl rfl (List.Sublist.refl _) rfl
        · exact frames_of_eq rfl rfl (List.Sublist.refl _) rfl
        · exact frames_of_eq rfl rfl List.filter_sublist rfl
  | fetch party now =>
      obtain ⟨⟨reply, next⟩, hfetch, rfl⟩ := Option.map_eq_some_iff.mp h
      obtain ⟨f, -, -, hsteps⟩ := fetchStep?_cases hfetch
      have hfetches := hsteps.fetches
      refine ⟨fun hne => absurd rfl (hne party now), hfetches.closed_eq.trans, fun _ => ?_, ?_⟩
      · rw [hfetches.routes_eq]
      · cases hsteps <;> rfl
  | submit party r =>
      rw [← Option.some.inj h]
      cases hsubmit : x.submit party r with
      | mk answer next =>
        rcases submit_cases hsubmit with ⟨-, -, rfl⟩ | ⟨_, -, ⟨-, -, rfl⟩ | ⟨_, _, _, -, -, -, rfl⟩⟩
        · exact frames_of_eq rfl rfl (List.Sublist.refl _) rfl
        · exact frames_of_eq rfl rfl List.filter_sublist rfl
        · exact frames_of_eq rfl rfl List.filter_sublist rfl
  | resumeSubmit s party id =>
      obtain ⟨⟨answer, next⟩, hresume, rfl⟩ := Option.map_eq_some_iff.mp h
      obtain ⟨_, _, _, -, -, -, rfl⟩ := resumeSubmit?_cases hresume
      exact frames_of_eq rfl rfl (List.Sublist.refl _) rfl
  | receive s =>
      rw [← Option.some.inj h]
      cases hreceive : x.receive s with
      | mk received next =>
        rcases receive_cases hreceive with ⟨-, rfl⟩ | ⟨_, _, _, -, -, -, rfl⟩
        · exact frames_of_eq rfl rfl (List.Sublist.refl _) rfl
        · exact frames_of_eq rfl rfl (List.Sublist.refl _) rfl
  | dropResults s =>
      rw [← Option.some.inj h, dropResults]
      split <;> exact frames_of_eq rfl rfl (List.Sublist.refl _) rfl
  | close =>
      rw [← Option.some.inj h, close]
      split
      · rw [closeQueueIfClosed_queue]
        exact ⟨fun _ => rfl, fun _ => rfl, fun _ => List.Sublist.refl _, rfl⟩
      · exact ⟨fun _ => rfl, fun _ => rfl, fun _ => List.Sublist.refl _, rfl⟩

/-! ## What orderly turns keep -/

/-- Nobody fetches twice at a time, a relay with a task in hand is at the queue with it, and who
waits for a task at the queue is first in line.  When its time is over, no place is reserved. -/
structure Orderly (x : Exchange) (now : Nat) : Prop where
  lineOnce : (x.line.map PendingFetch.party).Nodup
  held : ∀ s task, (x.outlet s).relay = .holding task → (s, task) ∈ x.queue.pending
  polls : ∀ f ∈ x.line, ∀ deadline, f.stage = .polling deadline →
    x.isFirst f.party = true ∧ (now < deadline ∨ x.queue.granted = [])

theorem orderly_opened (settings : QueueSettings) (now : Nat) :
    (opened settings).Orderly now := by
  constructor
  · exact List.nodup_nil
  · intro s task hholding
    cases hholding
  · exact nofun

theorem isFirst_inj {party' : Party} (h : x.isFirst party = true) (h' : x.isFirst party' = true) :
    party = party' := by
  obtain ⟨f, rest, hline, rfl⟩ := isFirst_iff.mp h
  obtain ⟨f', rest', hline', rfl⟩ := isFirst_iff.mp h'
  rw [hline] at hline'
  rw [(List.cons.inj hline').1]

namespace Orderly

/-- Whoever is at the queue is first in line. -/
theorem first (h : x.Orderly now) {f : PendingFetch} (hf : f ∈ x.line) (hturn : x.AtQueue f) :
    x.isFirst f.party = true := by
  rcases hturn with hfirst | ⟨deadline, hstage⟩
  · exact hfirst
  · exact (h.polls f hf deadline hstage).1

/-- When the first in line leaves, nobody is left that waits for a task at the queue. -/
theorem not_polling (h : x.Orderly now) {f : PendingFetch} (hfirst : x.isFirst party = true)
    (hf : f ∈ x.lineWithout party) (deadline : Nat) : f.stage ≠ .polling deadline := by
  intro hstage
  obtain ⟨hmem, hne⟩ := mem_lineWithout.mp hf
  exact hne (isFirst_inj (h.polls f hmem deadline hstage).1 hfirst)

/-! ### Deals from outside -/

/-- The line stays as it is, and no place is reserved anew. -/
theorem congr (h : x.Orderly now) (hline : x'.line = x.line)
    (hheld : ∀ s task, (x'.outlet s).relay = .holding task → (s, task) ∈ x'.queue.pending)
    (hgranted : x.queue.granted = [] → x'.queue.granted = []) : x'.Orderly now := by
  constructor
  · rw [hline]
    exact h.lineOnce
  · exact hheld
  · intro f hf deadline hstage
    rw [hline] at hf
    obtain ⟨hfirst, htime⟩ := h.polls f hf deadline hstage
    exact ⟨by rwa [isFirst, hline], htime.imp_right hgranted⟩

theorem outside (h : x.Orderly now) (hline : x'.line = x.lineAfter d)
    (hnew : ∀ party, d = .startFetch party → x.fetchOf? party = none)
    (hrelays : ∀ s, (x'.outlet s).relay = (x.outlet s).relay)
    (hqueue : x'.queue = x.queue ∨ x'.queue = x.queue.close) : x'.Orderly now := by
  have hplaces : x'.queue.pending = x.queue.pending ∧ x'.queue.granted = x.queue.granted := by
    rcases hqueue with hqueue | hqueue
    · rw [hqueue]
      exact ⟨rfl, rfl⟩
    · rw [hqueue]
      exact ⟨rfl, rfl⟩
  have hheld : ∀ s task, (x'.outlet s).relay = .holding task → (s, task) ∈ x'.queue.pending := by
    intro s task hholding
    rw [hrelays] at hholding
    rw [hplaces.1]
    exact h.held s task hholding
  have hcases : x'.line = x.line ∨
      (∃ party, x.fetchOf? party = none ∧ x'.line = x.line ++ [⟨party, .inLine⟩]) ∨
      ∃ party, x'.line = x.lineWithout party := by
    rw [hline]
    unfold lineAfter
    split
    · next party => exact .inr (.inl ⟨party, hnew party rfl, rfl⟩)
    · next party => exact .inr (.inr ⟨party, rfl⟩)
    · exact .inl rfl
  rcases hcases with hsame | ⟨party, hnone, hcomes⟩ | ⟨party, hleaves⟩
  · exact h.congr hsame hheld hplaces.2.trans
  · constructor
    · have habsent : party ∉ x.line.map PendingFetch.party := by
        simpa [fetchOf?] using hnone
      have hperm : (x'.line.map PendingFetch.party).Perm
          (party :: x.line.map PendingFetch.party) := by
        simp [hcomes]
      exact hperm.nodup_iff.mpr (List.nodup_cons.mpr ⟨habsent, h.lineOnce⟩)
    · exact hheld
    · intro f hf deadline hstage
      rw [hcomes, List.mem_append, List.mem_singleton] at hf
      rcases hf with hf | rfl
      · obtain ⟨hfirst, htime⟩ := h.polls f hf deadline hstage
        obtain ⟨g, rest, hg, hparty⟩ := isFirst_iff.mp hfirst
        refine ⟨isFirst_iff.mpr ⟨g, rest ++ [⟨party, .inLine⟩], ?_, hparty⟩, by rwa [hplaces.2]⟩
        simp [hcomes, hg]
      · cases hstage
  · constructor
    · rw [hleaves]
      exact h.lineOnce.sublist (List.filter_sublist.map _)
    · exact hheld
    · intro f hf deadline hstage
      rw [hleaves] at hf
      obtain ⟨hmem, hne⟩ := mem_lineWithout.mp hf
      obtain ⟨hfirst, htime⟩ := h.polls f hmem deadline hstage
      exact ⟨isFirst_lineWithout [] hfirst hne (by simp [hleaves]), by rwa [hplaces.2]⟩

/-! ### Fetches -/

theorem fetch (h : x.Orderly now) {f : PendingFetch} (hf : x.fetchOf? party = some f)
    {reply : Option FetchReply} (hfetches : FetchesAs x f now reply x') : x'.Orderly now := by
  obtain ⟨hmem, rfl⟩ := fetchOf?_some hf
  have hsteps := hfetches.fetches
  have hheld : ∀ s task, (x'.outlet s).relay = .holding task → (s, task) ∈ x'.queue.pending := by
    intro s task hholding
    rw [hsteps.pending_eq]
    apply h.held s task
    rwa [outlet, hsteps.sessions_eq] at hholding
  -- the line without the first, in which nobody is at the queue
  have hleft : x.isFirst f.party = true → x'.line = x.lineWithout f.party → x'.Orderly now := by
    intro hfirst hline
    constructor
    · rw [hline]
      exact h.lineOnce.sublist (List.filter_sublist.map _)
    · exact hheld
    · intro g hg deadline hstage
      rw [hline] at hg
      exact absurd hstage (h.not_polling hfirst hg deadline)
  cases hfetches with
  | takes hturn _ _ => exact hleft (h.first hmem hturn) rfl
  | leaves hturn _ _ => exact hleft (h.first hmem hturn) rfl
  | @polls timeout hfirst _ _ htimeout =>
      have hparties : (x.setStage f.party (.polling (now + timeout))).line.map PendingFetch.party =
          x.line.map PendingFetch.party := by
        rw [setStage, List.map_map]
        refine List.map_congr_left fun g _ => ?_
        by_cases he : g.party = f.party
        · simp [he]
        · simp [he]
      constructor
      · rw [hparties]
        exact h.lineOnce
      · exact hheld
      · intro g hg deadline hstage
        obtain ⟨g', hg', rfl⟩ := List.mem_map.mp hg
        by_cases he : g'.party = f.party
        · simp only [he, beq_self_eq_true, if_true] at hstage ⊢
          obtain rfl := FetchStage.polling.inj hstage
          obtain ⟨first, rest, hline, hparty⟩ := isFirst_iff.mp hfirst
          refine ⟨isFirst_iff.mpr ?_, .inl (Nat.lt_add_of_pos_right htimeout)⟩
          exact ⟨_, _, by rw [setStage, hline]; rfl, by simp [hparty]⟩
        · have hsame : (if g'.party == f.party then
              ⟨f.party, .polling (now + timeout)⟩ else g' : PendingFetch) = g' := by simp [he]
          rw [hsame] at hstage
          exact absurd (isFirst_inj (h.polls g' hg' deadline hstage).1 hfirst) he
  | requeues hclosed _ =>
      constructor
      · have hperm : ((x.requeue f.party).line.map PendingFetch.party).Perm
            (f.party :: (x.lineWithout f.party).map PendingFetch.party) := by
          simp [requeue]
        refine hperm.nodup_iff.mpr (List.nodup_cons.mpr ⟨?_, ?_⟩)
        · simp [lineWithout]
        · exact h.lineOnce.sublist (List.filter_sublist.map _)
      · exact hheld
      · intro g hg deadline hstage
        rw [requeue, List.mem_append, List.mem_singleton] at hg
        rcases hg with hg | rfl
        · obtain ⟨hg, hne⟩ := mem_lineWithout.mp hg
          obtain ⟨hfirst, htime⟩ := h.polls g hg deadline hstage
          exact ⟨isFirst_lineWithout _ hfirst hne rfl, htime⟩
        · cases hstage

/-! ### Time -/

theorem wait (h : x.Orderly now) (hgranted : x.queue.granted = []) (moment : Nat) :
    x.Orderly moment := by
  constructor
  · exact h.lineOnce
  · exact h.held
  · intro f hf deadline hstage
    exact ⟨(h.polls f hf deadline hstage).1, .inr hgranted⟩

end Orderly

/-- While a place is reserved, the relay for which it is can go on. -/
theorem granted_eq_nil {journal : Journal} (hqueues : journal.Queues capacity x)
    (hquiet : ∀ s, x.relayStep? s = none) : x.queue.granted = [] := by
  refine List.eq_nil_iff_forall_not_mem.mpr ?_
  rintro ⟨s, task⟩ hgranted
  have hholding := hqueues.pending s task (List.mem_append_left _ hgranted)
  obtain ⟨-, hnone⟩ := blocked_iff.mp ⟨relay?_eq_holding.mpr hholding, hquiet s⟩
  obtain ⟨-, u, hwaiting⟩ := Channel.attempt?_eq_none hnone
  have honce := hqueues.pendingOnce
  rw [Channel.pending, List.map_append, List.nodup_append] at honce
  exact honce.2.2 s (List.mem_map.mpr ⟨_, hgranted, rfl⟩) s
    (List.mem_map.mpr ⟨_, hwaiting, rfl⟩) rfl

variable {journal journal' : Journal}

/-- A deal that is neither a step of a relay nor one of a fetch moves no relay. -/
theorem Conveys.outside (h : Conveys journal x d journal' x') (hrelay : ∀ s, d ≠ .relay s)
    (hfetch : ∀ party now, d ≠ .fetch party now) :
    (∀ s, (x'.outlet s).relay = (x.outlet s).relay) ∧
      (x'.queue = x.queue ∨ x'.queue = x.queue.close) := by
  have hkept : ∀ {s : SessionId} {tasks : Channel Party Task} (s' : SessionId),
      (Function.update x.outlet s { x.outlet s with tasks } s').relay = (x.outlet s').relay := by
    intro s tasks s'
    by_cases he : s' = s
    · subst he
      rw [Function.update_self]
    · rw [Function.update_of_ne he]
  cases h with
  | rests hqueue houtlets => exact ⟨fun s => by rw [houtlets], hqueue⟩
  | offers _ hqueue houtlets => exact ⟨houtlets ▸ hkept, .inl hqueue⟩
  | resumes _ hqueue houtlets => exact ⟨houtlets ▸ hkept, .inl hqueue⟩
  | withdraws hqueue houtlets => exact ⟨houtlets ▸ hkept, .inl hqueue⟩
  | takes | ends | waits | puts | drops => exact absurd rfl (hrelay _)
  | fetches => exact absurd rfl (hfetch _ _)

/-- A step of a relay concerns no other session. -/
theorem Conveys.others (h : Conveys journal x (.relay s) journal' x')
    (hqueues : journal.Queues capacity x) {s' : SessionId} (hne : s' ≠ s) :
    x'.outlet s' = x.outlet s' ∧
      ∀ task, (s', task) ∈ x.queue.pending → (s', task) ∈ x'.queue.pending := by
  have hattempted : ∀ {task : Task} {sending : Sending},
      x.queue.attempt? s task = some (sending, x'.queue) →
      ∀ other, (s', other) ∈ x.queue.pending → (s', other) ∈ x'.queue.pending := by
    intro task sending hattempt other hpending
    rcases Channel.attempt?_cases hqueues.pendingOnce hattempt with
      ⟨-, -, -, -, hwaits⟩ | ⟨hothers, -⟩
    · rw [hwaits]
      exact List.mem_append_left _ hpending
    · rw [hothers]
      exact List.mem_filter.mpr ⟨hpending, by simpa using hne⟩
  cases h with
  | rests hqueue houtlets =>
      refine ⟨by rw [houtlets], fun task hpending => ?_⟩
      rcases hqueue with hqueue | hqueue <;> exact hqueue ▸ hpending
  | takes _ _ _ hqueue houtlets =>
      exact ⟨by rw [houtlets, Function.update_of_ne hne], fun task hpending => hqueue ▸ hpending⟩
  | ends _ _ hqueue houtlets =>
      exact ⟨by rw [houtlets, Function.update_of_ne hne], fun task hpending => hqueue ▸ hpending⟩
  | waits _ hattempt houtlets => exact ⟨by rw [houtlets], hattempted hattempt⟩
  | puts _ hattempt houtlets =>
      exact ⟨by rw [houtlets, Function.update_of_ne hne], hattempted hattempt⟩
  | drops _ hattempt houtlets =>
      exact ⟨by rw [houtlets, Function.update_of_ne hne], hattempted hattempt⟩

theorem Conveys.granted (h : Conveys journal x (.relay s) journal' x')
    (hnone : x.queue.granted = []) : x'.queue.granted = [] := by
  cases h with
  | rests hqueue _ => rcases hqueue with hqueue | hqueue <;> exact hqueue ▸ hnone
  | takes _ _ _ hqueue _ => exact hqueue ▸ hnone
  | ends _ _ hqueue _ => exact hqueue ▸ hnone
  | waits _ hattempt _ => exact Channel.attempt?_granted hattempt hnone
  | puts _ hattempt _ => exact Channel.attempt?_granted hattempt hnone
  | drops _ hattempt _ => exact Channel.attempt?_granted hattempt hnone

/-- A relay that has brought its task to the queue has put it in, waits there with it or ends. -/
theorem held_relayStep? (hqueues : journal.Queues capacity x)
    (hholding : (x.outlet s).relay = .holding task) (h : x.relayStep? s = some x') {other : Task}
    (hafter : (x'.outlet s).relay = .holding other) : (s, other) ∈ x'.queue.pending := by
  obtain ⟨session, hs, ⟨hrelay, -⟩ | ⟨held, hrelay, hputs⟩⟩ := relayStep?_cases h
  · rw [outlet_eq hs] at hholding
    cases hrelay.symm.trans hholding
  · obtain ⟨sending, queue, hattempt, hcases⟩ := relayPuts?_cases hputs
    rcases hcases with ⟨-, rfl⟩ | ⟨rfl, rfl⟩ | ⟨-, rfl⟩
    · rw [outlet_setSession (x := { x with queue }) hs, Function.update_self] at hafter
      cases hafter
    · have hsame : (x.outlet s).relay = .holding other := hafter
      rw [outlet_eq hs] at hsame
      obtain rfl := Relay.holding.inj (hrelay.symm.trans hsame)
      rcases Channel.attempt?_cases hqueues.pendingOnce hattempt with
        ⟨-, -, -, -, hpending⟩ | ⟨-, ⟨hsending, -⟩ | ⟨u, hsending, -⟩⟩
      · exact hpending ▸ List.mem_append_right _ (List.mem_singleton_self _)
      · cases hsending
      · cases hsending
    · rw [endRelay, outlet_setSession (x := ({ x with queue } : Exchange).removeRoute held.id) hs,
        Function.update_self] at hafter
      cases hafter

end Exchange

/-! ## Turns -/

namespace Journaled

theorem relayTurn?_cases (h : j.relayTurn? s = some j') :
    ∃ next, j.deal? (.relay s) = some next ∧
      ((next.deal? (.relay s) = some j' ∧ ∃ task, next.exchange.relay? s = some (.holding task)) ∨
        (j' = next ∧ (next.deal? (.relay s) = none ∨
          ∀ task, j.exchange.relay? s = some .idle →
            next.exchange.relay? s ≠ some (.holding task)))) := by
  obtain ⟨next, hdeal, hrest⟩ := Option.map_eq_some_iff.mp h
  refine ⟨next, hdeal, ?_⟩
  split at hrest
  · next task hidle hholding =>
    cases hsecond : next.deal? (.relay s) with
    | none =>
        rw [hsecond] at hrest
        exact .inr ⟨hrest.symm, .inl rfl⟩
    | some last =>
        rw [hsecond] at hrest
        obtain rfl : last = j' := hrest
        exact .inl ⟨rfl, task, hholding⟩
  · next hrested => exact .inr ⟨hrest.symm, .inr fun task hidle => hrested task hidle⟩

theorem line_relayTurn? (h : j.relayTurn? s = some j') : j'.exchange.line = j.exchange.line := by
  have hrelay : ∀ {j j' : Journaled}, j.deal? (.relay s) = some j' →
      j'.exchange.line = j.exchange.line := fun hdeal =>
    (frames_deal? (exchange_of_deal? hdeal)).line (by simp)
  obtain ⟨next, hdeal, ⟨hlast, -⟩ | ⟨rfl, -⟩⟩ := relayTurn?_cases h
  · exact (hrelay hlast).trans (hrelay hdeal)
  · exact hrelay hdeal

/-- A relay that cannot go on waits at the queue, and any other one is there after its turn. -/
theorem orderly_relayTurn? (hmatches : j.journal.Matches capacity j.exchange)
    (h : j.exchange.Orderly now) (hturn : j.relayTurn? s = some j') :
    j'.journal.Matches capacity j'.exchange ∧ j'.exchange.Orderly now := by
  obtain ⟨next, hdeal, hcases⟩ := relayTurn?_cases hturn
  have hfirst := conveys_of_deal? hdeal
  have hnext := hfirst.matches hmatches
  have hline := line_relayTurn? hturn
  rcases hcases with ⟨hlast, held, hholds⟩ | ⟨rfl, hrests⟩
  · have hsecond := conveys_of_deal? hlast
    refine ⟨hsecond.matches hnext, h.congr hline ?_ fun hnone =>
      hsecond.granted (hfirst.granted hnone)⟩
    intro s' task hholding
    by_cases he : s' = s
    · subst he
      exact held_relayStep? hnext.queues (relay?_eq_holding.mp hholds)
        (exchange_of_deal? hlast) hholding
    · obtain ⟨hsame, hpending⟩ := hsecond.others hnext.queues he
      obtain ⟨hsame', hpending'⟩ := hfirst.others hmatches.queues he
      rw [hsame, hsame'] at hholding
      exact hpending task (hpending' task (h.held s' task hholding))
  · refine ⟨hnext, h.congr hline ?_ hfirst.granted⟩
    intro s' task hholding
    by_cases he : s' = s
    · subst he
      rcases hrests with hnone | hrested
      · have hstuck : j'.exchange.relayStep? s' = none := by
          simpa [deal?, Audited.deal?] using hnone
        exact hnext.queues.pending_of_blocked ⟨relay?_eq_holding.mpr hholding, hstuck⟩
      · -- the relay was not idle before, so it has brought its task to the queue already
        have hstep := exchange_of_deal? hdeal
        obtain ⟨session, hs, ⟨hrelay, -⟩ | ⟨held, hrelay, -⟩⟩ := relayStep?_cases hstep
        · have hidle : j.exchange.relay? s' = some .idle := by simp [relay?, hs, hrelay]
          exact absurd (relay?_eq_holding.mpr hholding) (hrested task hidle)
        · have hheld : (j.exchange.outlet s').relay = .holding held := by
            rw [outlet_eq hs]
            exact hrelay
          exact held_relayStep? hmatches.queues hheld hstep hholding
    · obtain ⟨hsame, hpending⟩ := hfirst.others hmatches.queues he
      rw [hsame] at hholding
      exact hpending task (h.held s' task hholding)

end Journaled

namespace Clocked

variable {c c' : Clocked} {t : Turn}

/-- The journal agrees with the exchange, and turns have been taken in order. -/
structure InOrder (capacity : Nat) (c : Clocked) : Prop where
  agrees : c.journal.Matches capacity c.exchange
  orderly : c.exchange.Orderly c.now

theorem inOrder_opened (settings : QueueSettings) :
    (opened settings).InOrder (max settings.capacity 1) :=
  ⟨Journaled.matches_opened settings, orderly_opened settings 0⟩

theorem quiet_of_isQuiet (h : c.isQuiet = true) :
    (∀ s, c.exchange.relayStep? s = none) ∧
      ∀ f ∈ c.exchange.line, c.exchange.fetchStep? f.party c.now = none := by
  simp only [isQuiet, Bool.and_eq_true, List.all_eq_true, List.mem_range,
    Option.isNone_iff_eq_none] at h
  obtain ⟨hrelays, hfetches⟩ := h
  refine ⟨fun s => ?_, hfetches⟩
  by_cases hlt : s < c.exchange.sessions.size
  · exact hrelays s hlt
  · simp [relayStep?, Array.getElem?_eq_none (Nat.le_of_not_lt hlt)]

/-- Everything that a turn can be. -/
theorem turn?_cases (h : c.turn? t = some c') :
    (∃ d, t = .outside d ∧ c.admits d = true ∧ c.deal? d = some c'.toJournaled ∧
      c'.now = c.now ∧ c'.answers = c.answers) ∨
    (∃ s, t = .relay s ∧ c.relayTurn? s = some c'.toJournaled ∧ c'.now = c.now ∧
      c'.answers = c.answers) ∨
    (∃ party reply, t = .fetch party ∧
      c.exchange.fetchStep? party c.now = some (reply, c'.exchange) ∧
      c.deal? (.fetch party c.now) = some c'.toJournaled ∧ c'.now = c.now ∧
      c'.answers = c.answers ++ reply.toList.map fun reply => (party, reply)) ∨
    ∃ moment, t = .wait moment ∧ c.isQuiet = true ∧ c.now < moment ∧
      c' = { c with now := moment } := by
  cases t with
  | outside d =>
      simp only [turn?] at h
      split at h
      · next hadmits =>
        obtain ⟨j, hdeal, rfl⟩ := Option.map_eq_some_iff.mp h
        exact .inl ⟨d, rfl, hadmits, hdeal, rfl, rfl⟩
      · cases h
  | relay s =>
      obtain ⟨j, hturn, rfl⟩ := Option.map_eq_some_iff.mp h
      exact .inr (.inl ⟨s, rfl, hturn, rfl, rfl⟩)
  | fetch party =>
      obtain ⟨⟨reply, x⟩, hfetch, hrest⟩ := Option.bind_eq_some_iff.mp h
      obtain ⟨j, hdeal, rfl⟩ := Option.map_eq_some_iff.mp hrest
      have hexchange : x = j.exchange := by
        have hmoved := Journaled.exchange_of_deal? hdeal
        simpa [Exchange.deal?, hfetch] using hmoved
      subst hexchange
      exact .inr (.inr (.inl ⟨party, reply, rfl, hfetch, hdeal, rfl, rfl⟩))
  | wait moment =>
      simp only [turn?] at h
      split at h
      · next hwaits =>
        cases h
        simp only [Bool.and_eq_true, decide_eq_true_eq] at hwaits
        exact .inr (.inr (.inr ⟨moment, rfl, hwaits.1, hwaits.2, rfl⟩))
      · cases h

theorem InOrder.turn (h : c.InOrder capacity) (hturn : c.turn? t = some c') :
    c'.InOrder capacity := by
  rcases turn?_cases hturn with ⟨d, -, hadmits, hdeal, hnow, -⟩ | ⟨s, -, hrelay, hnow, -⟩ |
    ⟨party, reply, -, hfetch, hdeal, hnow, -⟩ | ⟨moment, -, hquiet, -, rfl⟩
  · have hnoRelay : ∀ s, d ≠ .relay s := by
      rintro s rfl
      cases hadmits
    have hnoFetch : ∀ party now, d ≠ .fetch party now := by
      rintro party now rfl
      cases hadmits
    have hnew : ∀ party, d = .startFetch party → c.exchange.fetchOf? party = none := by
      rintro party rfl
      simpa [admits] using hadmits
    have hconveys := Journaled.conveys_of_deal? hdeal
    obtain ⟨hrelays, hqueue⟩ := hconveys.outside hnoRelay hnoFetch
    have hline := (frames_deal? (Journaled.exchange_of_deal? hdeal)).line hnoFetch
    exact ⟨hconveys.matches h.agrees, hnow ▸ h.orderly.outside hline hnew hrelays hqueue⟩
  · obtain ⟨hmatches, horderly⟩ := Journaled.orderly_relayTurn? h.agrees h.orderly hrelay
    exact ⟨hmatches, hnow ▸ horderly⟩
  · obtain ⟨f, hf, -, hfetches⟩ := fetchStep?_cases hfetch
    exact ⟨(Journaled.conveys_of_deal? hdeal).matches h.agrees,
      hnow ▸ h.orderly.fetch hf hfetches⟩
  · have hgranted := granted_eq_nil h.agrees.queues (quiet_of_isQuiet hquiet).1
    exact ⟨h.agrees, h.orderly.wait hgranted moment⟩

theorem InOrder.turns {turns : List Turn} (h : c.InOrder capacity)
    (hturns : c.turns? turns = some c') : c'.InOrder capacity := by
  induction turns generalizing c with
  | nil =>
      cases hturns
      exact h
  | cons t rest ih =>
      obtain ⟨next, hturn, hrest⟩ := Option.bind_eq_some_iff.mp hturns
      exact ih (h.turn hturn) hrest

end Clocked

end TaskFarm
