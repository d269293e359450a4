import TaskFarm.Channel
import Mathlib.Data.List.Basic

/-!
# What a channel holds

A value is in a channel from the time its sender comes until it is taken or lost: inside, or with a
sender that has not put it in yet.  Each operation is described by what it makes of the values
inside and of the pending senders; which places are reserved does not matter.
-/

namespace TaskFarm.Channel

variable {σ α : Type}

/-- The senders that have not put their value in, with their values. -/
def pending (ch : Channel σ α) : List (σ × α) :=
  ch.granted ++ ch.waiting

/-- The values inside and those of the pending senders. -/
def contents (ch : Channel σ α) : List α :=
  ch.buffer ++ ch.pending.map Prod.snd

theorem mem_contents {ch : Channel σ α} {v : α} :
    v ∈ ch.contents ↔ v ∈ ch.buffer ∨ ∃ s, (s, v) ∈ ch.pending := by
  simp [contents]

theorem contents_discard_subset (ch : Channel σ α) : ch.discard.contents ⊆ ch.contents :=
  List.subset_append_right _ _

/-! ## Granting a place -/

theorem grant_eq (ch : Channel σ α) :
    ch.grant.buffer = ch.buffer ∧ ch.grant.pending = ch.pending ∧ ch.grant.closed = ch.closed := by
  unfold grant
  split
  · exact ⟨rfl, rfl, rfl⟩
  · next next others hwaiting =>
    split
    · exact ⟨rfl, by simp [pending, hwaiting], rfl⟩
    · exact ⟨rfl, rfl, rfl⟩

@[simp] theorem grant_buffer (ch : Channel σ α) : ch.grant.buffer = ch.buffer :=
  ch.grant_eq.1

@[simp] theorem grant_pending (ch : Channel σ α) : ch.grant.pending = ch.pending :=
  ch.grant_eq.2.1

@[simp] theorem grant_closed (ch : Channel σ α) : ch.grant.closed = ch.closed :=
  ch.grant_eq.2.2

/-! ## Coming and taking -/

/-- Everything that can become of a sender that comes. -/
theorem offer_cases {ch ch' : Channel σ α} {s : σ} {v : α} {sending : Sending}
    (h : ch.offer s v = (sending, ch')) :
    (sending = .refused ∧ ch.closed = true ∧ ch' = ch) ∨
    (sending = .accepted ∧ ch.closed = false ∧ ch' = { ch with buffer := ch.buffer ++ [v] }) ∨
    (sending = .waiting ∧ ch.closed = false ∧
      ch' = { ch with waiting := ch.waiting ++ [(s, v)] }) := by
  unfold offer at h
  split at h
  · next hclosed =>
    cases h
    exact .inl ⟨rfl, hclosed, rfl⟩
  · next hclosed =>
    have hopen : ch.closed = false := Bool.eq_false_iff.mpr hclosed
    split at h
    · cases h
      exact .inr (.inl ⟨rfl, hopen, rfl⟩)
    · cases h
      exact .inr (.inr ⟨rfl, hopen, rfl⟩)

theorem offer_contents_subset {ch ch' : Channel σ α} {s : σ} {v : α} {sending : Sending}
    (h : ch.offer s v = (sending, ch')) : ch'.contents ⊆ v :: ch.contents := by
  rcases offer_cases h with ⟨-, -, rfl⟩ | ⟨-, -, rfl⟩ | ⟨-, -, rfl⟩
  · exact List.subset_cons_self _ _
  · intro u hu
    simpa [contents, pending, or_left_comm, or_assoc] using hu
  · intro u hu
    simp only [contents, pending, List.map_append, List.mem_append, List.mem_cons, List.map_cons,
      List.map_nil, List.not_mem_nil, or_false] at hu ⊢
    tauto

theorem offer_closed {ch ch' : Channel σ α} {s : σ} {v : α} {sending : Sending}
    (h : ch.offer s v = (sending, ch')) : ch'.closed = ch.closed := by
  rcases offer_cases h with ⟨-, -, rfl⟩ | ⟨-, -, rfl⟩ | ⟨-, -, rfl⟩ <;> rfl

theorem take?_some {ch ch' : Channel σ α} {v : α} (h : ch.take? = some (v, ch')) :
    ch.buffer = v :: ch'.buffer ∧ ch'.pending = ch.pending ∧ ch'.closed = ch.closed := by
  unfold take? at h
  split at h
  · cases h
  · next v' rest hbuffer =>
    cases h
    exact ⟨by simp [hbuffer], by rw [grant_pending]; rfl, by rw [grant_closed]⟩

theorem take?_contents {ch ch' : Channel σ α} {v : α} (h : ch.take? = some (v, ch')) :
    ch.contents = v :: ch'.contents := by
  obtain ⟨hbuffer, hpending, -⟩ := take?_some h
  simp [contents, hbuffer, hpending]

theorem contents_subset_of_taken {ch ch' : Channel σ α}
    (h : ch' = ch ∨ ∃ v, ch.take? = some (v, ch')) : ch'.contents ⊆ ch.contents := by
  rcases h with rfl | ⟨v, htake⟩
  · exact List.Subset.refl _
  · rw [take?_contents htake]
    exact List.subset_cons_self _ _

/-! ## Going on and leaving -/

variable [BEq σ]

/-- The value of the sender for which a place is reserved. -/
def reserved? (ch : Channel σ α) (sender : σ) : Option α :=
  (ch.granted.find? fun pair => pair.1 == sender).map Prod.snd

theorem others_sublist (sender : σ) (pairs : List (σ × α)) :
    (others sender pairs).Sublist pairs :=
  List.filter_sublist

theorem withdraw_eq (ch : Channel σ α) (s : σ) :
    (ch.withdraw s).buffer = ch.buffer ∧ (ch.withdraw s).pending = others s ch.pending ∧
      (ch.withdraw s).closed = ch.closed := by
  refine ⟨grant_buffer _, ?_, grant_closed _⟩
  rw [withdraw, grant_pending]
  simp [pending, others]

theorem withdraw_contents_subset (ch : Channel σ α) (s : σ) :
    (ch.withdraw s).contents ⊆ ch.contents := by
  obtain ⟨hbuffer, hpending, -⟩ := ch.withdraw_eq s
  rw [contents, contents, hbuffer, hpending]
  exact List.append_subset.mpr ⟨List.subset_append_left _ _,
    List.subset_append_of_subset_right _ (List.map_subset _ (others_sublist s _).subset)⟩

theorem not_mem_pending [LawfulBEq σ] {ch : Channel σ α} {s : σ} (h : ch.isPending s = false) :
    s ∉ ch.pending.map Prod.fst := by
  simp only [isPending, isGranted, Bool.or_eq_false_iff, List.any_eq_false] at h
  obtain ⟨hgranted, hwaiting⟩ := h
  intro hs
  obtain ⟨pair, hpair, rfl⟩ := List.mem_map.mp hs
  rcases List.mem_append.mp hpair with hpair | hpair
  · exact hgranted pair hpair (beq_self_eq_true _)
  · exact hwaiting pair hpair (beq_self_eq_true _)

theorem not_mem_others [LawfulBEq σ] (s : σ) (pairs : List (σ × α)) :
    s ∉ (others s pairs).map Prod.fst := by
  simp [others]

theorem others_eq_self [LawfulBEq σ] {s : σ} {pairs : List (σ × α)}
    (h : s ∉ pairs.map Prod.fst) : others s pairs = pairs := by
  refine List.filter_eq_self.mpr fun pair hpair => ?_
  have hne : pair.1 ≠ s := fun he => h (he ▸ List.mem_map_of_mem hpair)
  simp [hne]

/-- Everything that can become of a pending sender that goes on. -/
theorem resume?_cases [LawfulBEq σ] {ch ch' : Channel σ α} {s : σ} {sending : Sending}
    (h : ch.resume? s = some (sending, ch')) :
    (sending = .refused ∧ ch.closed = true ∧ ch' = ch.withdraw s) ∨
    ∃ v, sending = .accepted ∧ ch.closed = false ∧ ch.reserved? s = some v ∧
      (s, v) ∈ ch.granted ∧
      ch' = { ch with buffer := ch.buffer ++ [v], granted := others s ch.granted } := by
  unfold resume? at h
  split at h
  · next hclosed =>
    split at h
    · cases h
      exact .inl ⟨rfl, hclosed, rfl⟩
    · cases h
  · next hclosed =>
    split at h
    · next s' v hfind =>
      have hs : s' = s := by simpa using List.find?_some hfind
      subst hs
      cases h
      exact .inr ⟨v, rfl, Bool.eq_false_iff.mpr hclosed, by simp [reserved?, hfind],
        List.mem_of_find?_eq_some hfind, rfl⟩
    · cases h

theorem resume?_contents_subset [LawfulBEq σ] {ch ch' : Channel σ α} {s : σ} {sending : Sending}
    (h : ch.resume? s = some (sending, ch')) : ch'.contents ⊆ ch.contents := by
  rcases resume?_cases h with ⟨-, -, rfl⟩ | ⟨v, -, -, -, hv, rfl⟩
  · exact ch.withdraw_contents_subset s
  · intro u hu
    rw [mem_contents] at hu ⊢
    rcases hu with hu | ⟨s', hu⟩
    · rcases List.mem_append.mp hu with hu | hu
      · exact .inl hu
      · rw [List.mem_singleton.mp hu]
        exact .inr ⟨s, List.mem_append_left _ hv⟩
    · exact .inr ⟨s', List.Sublist.subset
        (List.Sublist.append_right (others_sublist s _) _) hu⟩

theorem resume?_closed [LawfulBEq σ] {ch ch' : Channel σ α} {s : σ} {sending : Sending}
    (h : ch.resume? s = some (sending, ch')) : ch'.closed = ch.closed := by
  rcases resume?_cases h with ⟨-, -, rfl⟩ | ⟨v, -, -, -, -, rfl⟩
  · exact (ch.withdraw_eq s).2.2
  · rfl

/-- Everything that can become of an attempt to send, if nobody sends two values at once. -/
theorem attempt?_cases [LawfulBEq σ] {ch ch' : Channel σ α} {s : σ} {v : α} {sending : Sending}
    (hnodup : (ch.pending.map Prod.fst).Nodup) (h : ch.attempt? s v = some (sending, ch')) :
    (sending = .waiting ∧ ch.closed = false ∧ s ∉ ch.pending.map Prod.fst ∧
      ch'.buffer = ch.buffer ∧ ch'.pending = ch.pending ++ [(s, v)]) ∨
    (ch'.pending = others s ch.pending ∧
      ((sending = .refused ∧ ch.closed = true ∧ ch'.buffer = ch.buffer) ∨
        ∃ u, sending = .accepted ∧ ch.closed = false ∧ (u = v ∨ (s, u) ∈ ch.pending) ∧
          ch'.buffer = ch.buffer ++ [u])) := by
  unfold attempt? at h
  split at h
  · rcases resume?_cases h with ⟨rfl, hclosed, rfl⟩ | ⟨u, rfl, hopen, -, hu, rfl⟩
    · obtain ⟨hbuffer, hpending, -⟩ := ch.withdraw_eq s
      exact .inr ⟨hpending, .inl ⟨rfl, hclosed, hbuffer⟩⟩
    · -- the place was reserved for this sender, so it does not wait for another one
      have hwaiting : s ∉ ch.waiting.map Prod.fst := by
        rw [pending, List.map_append, List.nodup_append] at hnodup
        exact fun hs => hnodup.2.2 s (List.mem_map.mpr ⟨_, hu, rfl⟩) s hs rfl
      refine .inr ⟨?_, .inr ⟨u, rfl, hopen, .inr (List.mem_append_left _ hu), rfl⟩⟩
      have hothers := others_eq_self hwaiting
      simp only [others] at hothers
      simp [pending, others, hothers]
  · next hpending =>
    have hnew : s ∉ ch.pending.map Prod.fst := not_mem_pending (Bool.eq_false_iff.mpr hpending)
    have hoffer : ch.offer s v = (sending, ch') := Option.some.inj h
    rcases offer_cases hoffer with ⟨rfl, hclosed, rfl⟩ | ⟨rfl, hopen, rfl⟩ | ⟨rfl, hopen, rfl⟩
    · exact .inr ⟨(others_eq_self hnew).symm, .inl ⟨rfl, hclosed, rfl⟩⟩
    · exact .inr ⟨(others_eq_self hnew).symm, .inr ⟨v, rfl, hopen, .inl rfl, rfl⟩⟩
    · exact .inl ⟨rfl, hopen, hnew, rfl, by simp [pending]⟩

theorem attempt?_closed [LawfulBEq σ] {ch ch' : Channel σ α} {s : σ} {v : α} {sending : Sending}
    (h : ch.attempt? s v = some (sending, ch')) : ch'.closed = ch.closed := by
  unfold attempt? at h
  split at h
  · exact resume?_closed h
  · exact offer_closed (Option.some.inj h)

theorem attempt?_contents_subset [LawfulBEq σ] {ch ch' : Channel σ α} {s : σ} {v : α}
    {sending : Sending} (h : ch.attempt? s v = some (sending, ch')) :
    ch'.contents ⊆ v :: ch.contents := by
  unfold attempt? at h
  split at h
  · exact List.subset_cons_of_subset _ (resume?_contents_subset h)
  · exact offer_contents_subset (Option.some.inj h)

/-- Only a closed channel refuses a sender. -/
theorem closed_of_attempt? [LawfulBEq σ] {ch ch' : Channel σ α} {s : σ} {v : α}
    (h : ch.attempt? s v = some (.refused, ch')) : ch.closed = true := by
  unfold attempt? at h
  split at h
  · rcases resume?_cases h with ⟨-, hclosed, -⟩ | ⟨_, hsending, -⟩
    · exact hclosed
    · cases hsending
  · rcases offer_cases (Option.some.inj h) with ⟨-, hclosed, -⟩ | ⟨hsending, -⟩ | ⟨hsending, -⟩
    · exact hclosed
    · cases hsending
    · cases hsending

/-! ## Places -/

section Places

omit [BEq σ]

/-- No more places are taken or reserved than there are. -/
def Fits (ch : Channel σ α) : Prop :=
  ch.occupied ≤ ch.capacity

/-- Whoever waits at an open channel waits since no place is free. -/
def WaitsForRoom (ch : Channel σ α) : Prop :=
  ch.closed = false → ch.waiting ≠ [] → ch.capacity ≤ ch.occupied

@[simp] theorem grant_capacity (ch : Channel σ α) : ch.grant.capacity = ch.capacity := by
  unfold grant
  split
  · rfl
  · split
    · rfl
    · rfl

/-- A closed channel grants nothing. -/
theorem grant_of_closed {ch : Channel σ α} (h : ch.closed = true) : ch.grant = ch := by
  unfold grant
  split
  · rfl
  · simp [h]

theorem fits_grant {ch : Channel σ α} (h : ch.Fits) : ch.grant.Fits := by
  unfold grant
  split
  · exact h
  · split
    · next hfree =>
      simp only [Bool.and_eq_true, decide_eq_true_eq] at hfree
      simp only [Fits, occupied, List.length_append, List.length_singleton] at hfree ⊢
      omega
    · exact h

/-- One free place is enough to let a channel wait for room again. -/
theorem waitsForRoom_grant {ch : Channel σ α} (h : ch.capacity ≤ ch.occupied + 1) :
    ch.grant.WaitsForRoom := by
  unfold grant
  split
  · next hnone => exact fun _ hwaiting => absurd hnone hwaiting
  · split
    · intro _ _
      simp only [occupied, List.length_append, List.length_singleton] at h ⊢
      omega
    · next hfull =>
      intro hopen _
      simpa [hopen] using hfull

theorem take?_eq {ch ch' : Channel σ α} {v : α} (h : ch.take? = some (v, ch')) :
    ∃ rest, ch.buffer = v :: rest ∧ ch' = grant { ch with buffer := rest } := by
  unfold take? at h
  split at h
  · cases h
  · next v' rest hbuffer =>
    cases h
    exact ⟨rest, hbuffer, rfl⟩

theorem take?_places {ch ch' : Channel σ α} {v : α} (h : ch.take? = some (v, ch')) :
    ch'.capacity = ch.capacity ∧ (ch.Fits → ch'.Fits) ∧ (ch.WaitsForRoom → ch'.WaitsForRoom) := by
  obtain ⟨rest, hbuffer, rfl⟩ := take?_eq h
  have hlength : ch.buffer.length = rest.length + 1 := by rw [hbuffer, List.length_cons]
  refine ⟨grant_capacity _, fun hfits => fits_grant ?_, fun hwaits => ?_⟩
  · simp only [Fits, occupied] at hfits ⊢
    omega
  · intro hopen hwaiting
    -- if somebody still waits, somebody waited before, and one place has become free
    have hwaited : ch.waiting ≠ [] := by
      intro hnone
      apply hwaiting
      simp [grant, hnone]
    have hfull := hwaits (by simpa using hopen) hwaited
    refine waitsForRoom_grant ?_ hopen hwaiting
    simp only [occupied] at hfull ⊢
    omega

theorem offer_places {ch ch' : Channel σ α} {s : σ} {v : α} {sending : Sending}
    (h : ch.offer s v = (sending, ch')) :
    ch'.capacity = ch.capacity ∧ (ch.Fits → ch'.Fits) ∧ (ch.WaitsForRoom → ch'.WaitsForRoom) := by
  unfold offer at h
  split at h
  · cases h
    exact ⟨rfl, id, id⟩
  · split at h
    · next hroom =>
      cases h
      simp only [hasRoom, Bool.and_eq_true, List.isEmpty_iff, decide_eq_true_eq] at hroom
      obtain ⟨hnone, hfree⟩ := hroom
      refine ⟨rfl, fun _ => ?_, fun _ _ hwaiting => absurd hnone hwaiting⟩
      simp only [Fits, occupied, List.length_append, List.length_singleton] at hfree ⊢
      omega
    · next hroom =>
      cases h
      refine ⟨rfl, id, fun hwaits hopen _ => ?_⟩
      change ch.capacity ≤ ch.occupied
      by_cases hwaiting : ch.waiting = []
      · simpa [hasRoom, hwaiting] using hroom
      · exact hwaits hopen hwaiting

/-- A sender is let in at once only if nobody waits and a place is free. -/
theorem hasRoom_of_offer {ch ch' : Channel σ α} {s : σ} {v : α}
    (h : ch.offer s v = (.accepted, ch')) : ch.waiting = [] ∧ ch.occupied < ch.capacity := by
  unfold offer at h
  split at h
  · cases h
  · split at h
    · next hroom => simpa [hasRoom] using hroom
    · cases h

end Places

theorem withdraw_places (ch : Channel σ α) (s : σ) :
    (ch.withdraw s).capacity = ch.capacity ∧ (ch.Fits → (ch.withdraw s).Fits) := by
  refine ⟨grant_capacity _, fun hfits => fits_grant ?_⟩
  have hless := (others_sublist s ch.granted).length_le
  simp only [Fits, occupied] at hfits ⊢
  omega

theorem length_others [LawfulBEq σ] {s : σ} {v : α} {pairs : List (σ × α)}
    (hnodup : (pairs.map Prod.fst).Nodup) (hmem : (s, v) ∈ pairs) :
    (others s pairs).length + 1 = pairs.length := by
  induction pairs with
  | nil => cases hmem
  | cons pair rest ih =>
      rw [List.map_cons, List.nodup_cons] at hnodup
      obtain ⟨hnew, hrest⟩ := hnodup
      by_cases he : pair.1 = s
      · have hgone := others_eq_self (he ▸ hnew)
        simp only [others] at hgone
        simp [others, he, hgone]
      · have hin : (s, v) ∈ rest := by
          rcases List.mem_cons.mp hmem with hhead | hin
          · exact absurd (congrArg Prod.fst hhead).symm he
          · exact hin
        have hlength := ih hrest hin
        simp only [others] at hlength
        simp [others, he, hlength]

theorem resume?_places [LawfulBEq σ] {ch ch' : Channel σ α} {s : σ} {sending : Sending}
    (h : ch.resume? s = some (sending, ch')) :
    ch'.capacity = ch.capacity ∧ (ch.Fits → ch'.Fits) ∧
      ((ch.pending.map Prod.fst).Nodup → ch.WaitsForRoom → ch'.WaitsForRoom) := by
  rcases resume?_cases h with ⟨-, hclosed, rfl⟩ | ⟨v, -, -, -, hmem, rfl⟩
  · obtain ⟨hcapacity, hfits⟩ := ch.withdraw_places s
    refine ⟨hcapacity, hfits, fun _ _ hopen => ?_⟩
    rw [(ch.withdraw_eq s).2.2, hclosed] at hopen
    cases hopen
  · refine ⟨rfl, fun hfits => ?_, fun hnodup hwaits hopen hwaiting => ?_⟩
    · have hless : (others s ch.granted).length < ch.granted.length :=
        List.length_filter_lt_length_iff_exists.mpr ⟨(s, v), hmem, by simp⟩
      simp only [Fits, occupied, List.length_append, List.length_singleton] at hfits ⊢
      omega
    · rw [pending, List.map_append, List.nodup_append] at hnodup
      have hlength := length_others hnodup.1 hmem
      have hfull := hwaits hopen hwaiting
      simp only [occupied, List.length_append, List.length_singleton] at hfull ⊢
      omega

theorem attempt?_places [LawfulBEq σ] {ch ch' : Channel σ α} {s : σ} {v : α} {sending : Sending}
    (h : ch.attempt? s v = some (sending, ch')) :
    ch'.capacity = ch.capacity ∧ (ch.Fits → ch'.Fits) ∧
      ((ch.pending.map Prod.fst).Nodup → ch.WaitsForRoom → ch'.WaitsForRoom) := by
  unfold attempt? at h
  split at h
  · exact resume?_places h
  · obtain ⟨hcapacity, hfits, hwaits⟩ := offer_places (Option.some.inj h)
    exact ⟨hcapacity, hfits, fun _ => hwaits⟩

/-- No place is reserved by an attempt to send. -/
theorem attempt?_granted [LawfulBEq σ] {ch ch' : Channel σ α} {s : σ} {v : α} {sending : Sending}
    (h : ch.attempt? s v = some (sending, ch')) (hnone : ch.granted = []) : ch'.granted = [] := by
  unfold attempt? at h
  split at h
  · rcases resume?_cases h with ⟨-, hclosed, rfl⟩ | ⟨u, -, -, -, hmem, -⟩
    · have hgone : (others s ch.granted) = [] := by rw [hnone]; rfl
      rw [withdraw, grant_of_closed (by exact hclosed)]
      exact hgone
    · simp [hnone] at hmem
  · rcases offer_cases (Option.some.inj h) with ⟨-, -, rfl⟩ | ⟨-, -, rfl⟩ | ⟨-, -, rfl⟩ <;>
      exact hnone

/-- A sender that cannot go on waits at an open channel. -/
theorem attempt?_eq_none [LawfulBEq σ] {ch : Channel σ α} {s : σ} {v : α}
    (h : ch.attempt? s v = none) : ch.closed = false ∧ ∃ u, (s, u) ∈ ch.waiting := by
  unfold attempt? at h
  split at h
  · next hpending =>
    unfold resume? at h
    rw [if_pos hpending] at h
    split at h
    · cases h
    · next hclosed =>
      refine ⟨Bool.eq_false_iff.mpr hclosed, ?_⟩
      split at h
      · cases h
      · next hnone =>
        have hungranted : ch.isGranted s = false := by simpa [isGranted] using hnone
        simpa [isPending, hungranted] using hpending
  · cases h

/-- A sender that waits at an open channel cannot go on. -/
theorem attempt?_of_waiting [LawfulBEq σ] {ch : Channel σ α} {s : σ} {u : α}
    (hnodup : (ch.pending.map Prod.fst).Nodup) (hopen : ch.closed = false)
    (hmem : (s, u) ∈ ch.waiting) (v : α) : ch.attempt? s v = none := by
  have hungranted : ∀ pair ∈ ch.granted, pair.1 ≠ s := by
    intro pair hpair he
    rw [pending, List.map_append, List.nodup_append] at hnodup
    exact hnodup.2.2 _ (List.mem_map_of_mem hpair) _ (List.mem_map_of_mem hmem) he
  have hpending : ch.isPending s = true := by
    simp only [isPending, Bool.or_eq_true, List.any_eq_true, beq_iff_eq]
    exact .inr ⟨_, hmem, rfl⟩
  have hnone : ch.granted.find? (fun pair => pair.1 == s) = none := by
    simpa using hungranted
  simp [attempt?, hpending, resume?, hopen, hnone]

end TaskFarm.Channel
