import TaskFarm.Expr.Span
import Mathlib.Data.List.Basic

/-!
# Places in a text

A place that lies between two characters is the number of bytes in front of it.  Splitting a text
there and slicing by a span are described by how the text is put together, so that later proofs
speak of the characters before and behind a place and not of offsets.
-/

namespace TaskFarm.Expr

@[simp] theorem byteLength_append (front back : List Char) :
    byteLength (front ++ back) = byteLength front + byteLength back := by
  induction front with
  | nil => simp
  | cons c front ih => simp [ih, Nat.add_assoc]

theorem byteLength_pos {cs : List Char} (h : cs ≠ []) : 0 < byteLength cs := by
  cases cs with
  | nil => exact absurd rfl h
  | cons c cs =>
      have := c.utf8Size_pos
      simp only [byteLength_cons]
      omega

/-- A place between two characters of a text says what stands in front of it. -/
theorem append_inj_of_byteLength {front back front' back' : List Char}
    (h : front ++ back = front' ++ back') (hlength : byteLength front = byteLength front') :
    front = front' ∧ back = back' := by
  induction front generalizing front' with
  | nil =>
      cases front' with
      | nil => exact ⟨rfl, h⟩
      | cons c cs =>
          have hpos := byteLength_pos (List.cons_ne_nil c cs)
          exact absurd hlength (Nat.ne_of_lt hpos)
  | cons c cs ih =>
      cases front' with
      | nil =>
          have hpos := byteLength_pos (List.cons_ne_nil c cs)
          exact absurd hlength.symm (Nat.ne_of_lt hpos)
      | cons d ds =>
          obtain ⟨rfl, hrest⟩ := List.cons.inj h
          obtain ⟨rfl, rfl⟩ := ih hrest (by simpa using hlength)
          exact ⟨rfl, rfl⟩

/-- What is put together in two ways is cut at the later place in both. -/
theorem append_split_of_byteLength_le {front back front' back' : List Char}
    (h : front ++ back = front' ++ back') (hle : byteLength front ≤ byteLength front') :
    ∃ middle, front' = front ++ middle ∧ back = middle ++ back' := by
  rcases List.append_eq_append_iff.mp h with ⟨middle, rfl, rfl⟩ | ⟨middle, rfl, rfl⟩
  · exact ⟨middle, rfl, rfl⟩
  · have hnil : middle = [] := by
      by_contra hne
      have := byteLength_pos hne
      simp only [byteLength_append] at hle
      omega
    subst hnil
    exact ⟨[], by simp, by simp⟩

/-- An element of two joined lists, such as a character of a joined text, belongs to the first part
or to the second one. -/
theorem append_eq_append_cons {α : Type} {front back before after : List α} {c : α}
    (h : front ++ back = before ++ c :: after) :
    (∃ middle, front = before ++ c :: middle ∧ after = middle ++ back) ∨
      ∃ middle, before = front ++ middle ∧ back = middle ++ c :: after := by
  rcases List.append_eq_append_iff.mp h with ⟨middle, rfl, rfl⟩ | ⟨middle, rfl, hafter⟩
  · exact .inr ⟨middle, rfl, rfl⟩
  · cases middle with
    | nil => exact .inr ⟨[], by simp, hafter.symm⟩
    | cons d middle =>
        obtain ⟨rfl, rfl⟩ := List.cons.inj hafter
        exact .inl ⟨middle, rfl, rfl⟩

theorem splitAtByte?_append (front back : List Char) :
    splitAtByte? (byteLength front) (front ++ back) = some (front, back) := by
  induction front with
  | nil => simp [splitAtByte?]
  | cons c cs ih =>
      have hpos := c.utf8Size_pos
      obtain ⟨n, hn⟩ : ∃ n, c.utf8Size + byteLength cs = n + 1 :=
        ⟨c.utf8Size + byteLength cs - 1, by omega⟩
      have hrest : n + 1 - c.utf8Size = byteLength cs := by omega
      simp only [byteLength_cons, hn, List.cons_append, splitAtByte?]
      rw [if_pos (by omega), hrest, ih]
      rfl

theorem splitAtByte?_eq_some {offset : Nat} {cs front back : List Char}
    (h : splitAtByte? offset cs = some (front, back)) :
    front ++ back = cs ∧ byteLength front = offset := by
  fun_induction splitAtByte? offset cs generalizing front back with
  | case1 =>
      cases h
      exact ⟨rfl, rfl⟩
  | case2 => cases h
  | case3 offset c cs hle ih =>
      obtain ⟨⟨inner, rest⟩, hsplit, hparts⟩ := Option.map_eq_some_iff.mp h
      cases hparts
      obtain ⟨rfl, hlength⟩ := ih hsplit
      refine ⟨rfl, ?_⟩
      simp only [byteLength_cons, hlength]
      omega
  | case4 => cases h

namespace Span

/-- The bytes of a span. -/
def Contains (s : Span) (offset : Nat) : Prop :=
  s.start ≤ offset ∧ offset < s.stop

/-- The span of a part of a text, given what stands in front of it. -/
def ofParts (before part : List Char) : Span :=
  ⟨byteLength before, byteLength before + byteLength part⟩

/-- A text lies under a span exactly when the span begins behind what stands in front of it. -/
theorem slice?_eq_some_iff {s : Span} {source part : List Char} :
    s.slice? source = some part ↔
      ∃ before after, source = before ++ part ++ after ∧ s = ofParts before part := by
  constructor
  · intro h
    unfold slice? at h
    split at h
    · next hle =>
      obtain ⟨⟨before, rest⟩, hsplit, h⟩ := Option.bind_eq_some_iff.mp h
      obtain ⟨⟨inner, after⟩, hsplit', hinner⟩ := Option.map_eq_some_iff.mp h
      cases hinner
      obtain ⟨rfl, hstart⟩ := splitAtByte?_eq_some hsplit
      obtain ⟨rfl, hlength⟩ := splitAtByte?_eq_some hsplit'
      refine ⟨before, after, by simp, ?_⟩
      obtain ⟨start, stop⟩ := s
      simp only [ofParts, mk.injEq] at hle hstart hlength ⊢
      omega
    · cases h
  · rintro ⟨before, after, rfl, rfl⟩
    have houter := splitAtByte?_append before (part ++ after)
    have hinner := splitAtByte?_append part after
    simp [slice?, ofParts, houter, hinner]

/-- From the beginning of one part of a text to a later end of another part there lies a part of the
text. -/
theorem exists_slice?_join {a b : Span} {source part part' : List Char}
    (ha : a.slice? source = some part) (hb : b.slice? source = some part')
    (hlt : a.start < b.stop) :
    ∃ whole, (a.join b).slice? source = some whole ∧ whole ≠ [] := by
  obtain ⟨before, after, hsource, rfl⟩ := slice?_eq_some_iff.mp ha
  obtain ⟨before', after', rfl, rfl⟩ := slice?_eq_some_iff.mp hb
  have hstop : (ofParts before' part').stop = byteLength (before' ++ part') :=
    (byteLength_append before' part').symm
  rw [hstop] at hlt
  obtain ⟨whole, hfront, -⟩ : ∃ whole, before' ++ part' = before ++ whole ∧ _ :=
    append_split_of_byteLength_le ((List.append_assoc ..).symm.trans hsource.symm)
      (Nat.le_of_lt hlt)
  rw [hfront, byteLength_append] at hlt hstop
  refine ⟨whole, slice?_eq_some_iff.mpr ⟨before, after', by rw [hfront], ?_⟩, ?_⟩
  · simp only [join, hstop]
    rfl
  · rintro rfl
    exact absurd hlt (by simp [ofParts])

end Span

end TaskFarm.Expr
