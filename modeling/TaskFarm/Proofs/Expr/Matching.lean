import TaskFarm.Proofs.Expr.Acceptance

/-!
# Matching parentheses

An opening parenthesis is closed by the first token behind it up to which more parentheses have been
closed than opened; if there is no such token, it is unmatched.  This module relates that way of
counting to lists in which all parentheses match, and to lists up to which some are still open.
-/

namespace TaskFarm.Expr

namespace Token

def isClose (t : Token) : Bool :=
  t.kind == .closeParen

def isParen (t : Token) : Bool :=
  t.isOpen || t.isClose

end Token

def closesIn (tokens : List Token) : Nat :=
  tokens.countP Token.isClose

/-- What is open before the tokens is open behind each of them: nowhere have more parentheses been
closed than opened. -/
def StaysOpen (tokens : List Token) : Prop :=
  ∀ front, front <+: tokens → closesIn front ≤ opensIn front

/-- The token is an opening parenthesis of the list that is not closed in the list. -/
def Unmatched (tokens : List Token) (opening : Token) : Prop :=
  ∃ before after, tokens = before ++ opening :: after ∧ opening.kind = .openParen ∧ StaysOpen after

/-- The token is the last unmatched opening parenthesis of the list. -/
def LastUnmatched (tokens : List Token) (opening : Token) : Prop :=
  ∃ before after, tokens = before ++ opening :: after ∧ opening.kind = .openParen ∧
    StaysOpen after ∧ ∀ t, ¬Unmatched after t

variable {ts us tokens : List Token} {t : Token}

theorem LastUnmatched.unmatched (h : LastUnmatched tokens t) : Unmatched tokens t := by
  obtain ⟨before, after, hsplit, hkind, hopen, -⟩ := h
  exact ⟨before, after, hsplit, hkind, hopen⟩

/-! ## Counting parentheses -/

theorem closesIn_append (ts us : List Token) :
    closesIn (ts ++ us) = closesIn ts + closesIn us :=
  List.countP_append

theorem opensIn_append_eq_add (ts us : List Token) :
    opensIn (ts ++ us) = opensIn ts + opensIn us :=
  List.countP_append

theorem count_paren_singleton_of_not_isParen (h : t.isParen = false) :
    opensIn [t] = 0 ∧ closesIn [t] = 0 := by
  simpa [Token.isParen, opensIn, closesIn] using h

theorem count_paren_singleton_open (h : t.kind = .openParen) :
    opensIn [t] = 1 ∧ closesIn [t] = 0 := by
  simp [opensIn, closesIn, Token.isOpen, Token.isClose, h]

theorem count_paren_singleton_close (h : t.kind = .closeParen) :
    opensIn [t] = 0 ∧ closesIn [t] = 1 := by
  simp [opensIn, closesIn, Token.isOpen, Token.isClose, h]

/-! ## What stays open -/

theorem staysOpen_nil : StaysOpen [] := by
  intro front hfront
  rw [List.prefix_nil.mp hfront]
  exact Nat.le_refl 0

theorem StaysOpen.le (h : StaysOpen ts) : closesIn ts ≤ opensIn ts :=
  h ts (List.prefix_refl ts)

theorem StaysOpen.left (h : StaysOpen (ts ++ us)) : StaysOpen ts :=
  fun front hfront => h front (hfront.trans (List.prefix_append ts us))

theorem StaysOpen.concat (h : StaysOpen ts) (hlast : closesIn (ts ++ [t]) ≤ opensIn (ts ++ [t])) :
    StaysOpen (ts ++ [t]) := by
  intro front hfront
  rcases List.prefix_concat_iff.mp hfront with rfl | hfront
  · exact hlast
  · exact h front hfront

theorem StaysOpen.append (hts : StaysOpen ts) (hus : StaysOpen us) : StaysOpen (ts ++ us) := by
  induction us using List.reverseRecOn with
  | nil => simpa using hts
  | append_singleton us t ih =>
      have hle := hts.le
      have hlast := hus.le
      rw [← List.append_assoc]
      refine (ih hus.left).concat ?_
      simp only [closesIn_append, opensIn_append_eq_add] at hlast ⊢
      omega

/-- An unmatched parenthesis of a joined list is one of the first part or one of the second part. -/
theorem Unmatched.of_append (h : Unmatched (ts ++ us) t) : Unmatched ts t ∨ Unmatched us t := by
  obtain ⟨before, after, hsplit, hkind, hopen⟩ := h
  rcases List.append_eq_append_iff.mp hsplit with ⟨middle, rfl, hus⟩ | ⟨middle, rfl, hafter⟩
  · exact .inr ⟨middle, after, hus, hkind, hopen⟩
  · cases middle with
    | nil => exact .inr ⟨[], after, hafter.symm, hkind, hopen⟩
    | cons u middle =>
        obtain ⟨rfl, rfl⟩ := List.cons.inj hafter
        exact .inl ⟨before, middle, rfl, hkind, hopen.left⟩

theorem not_unmatched_singleton {u : Token} (h : t.kind ≠ .openParen) : ¬Unmatched [t] u := by
  rintro ⟨before, after, hsplit, hkind, -⟩
  have hmem : u ∈ [t] := by simp [hsplit]
  rw [List.mem_singleton.mp hmem] at hkind
  exact h hkind

/-! ## Balanced lists -/

theorem Token.isParen_of_numeral {text : String} (h : t.kind = .numeral text) :
    t.isParen = false := by
  simp [isParen, isOpen, isClose, h]

theorem Token.isParen_of_operator {op : Operator} (h : t.kind = .operator op) :
    t.isParen = false := by
  simp [isParen, isOpen, isClose, h]

theorem Balanced.closesIn_eq (h : Balanced tokens) : closesIn tokens = opensIn tokens := by
  -- numerals and operators count for nothing
  have hplain : ∀ {before : List Token} {t : Token}, t.isParen = false →
      closesIn before = opensIn before → closesIn (before ++ [t]) = opensIn (before ++ [t]) := by
    intro before t ht ih
    obtain ⟨hopens, hcloses⟩ := count_paren_singleton_of_not_isParen ht
    rw [closesIn_append, opensIn_append_eq_add, ih, hopens, hcloses]
  induction h with
  | nil => rfl
  | numeral _ hkind _ ih => exact hplain (Token.isParen_of_numeral hkind) ih
  | operator _ hkind ih => exact hplain (Token.isParen_of_operator hkind) ih
  | @group before inner opening closing _ hopen _ hclose ih ihinner =>
      obtain ⟨hopens, hcloses⟩ := count_paren_singleton_open hopen
      obtain ⟨hopens', hcloses'⟩ := count_paren_singleton_close hclose
      rw [← List.singleton_append]
      simp only [closesIn_append, opensIn_append_eq_add]
      omega

/-- Nowhere in a balanced list have more parentheses been closed than opened. -/
theorem Balanced.staysOpen (h : Balanced tokens) : StaysOpen tokens := by
  induction h with
  | nil => exact staysOpen_nil
  | numeral h hkind hvalue ih => exact ih.concat (h.numeral hkind hvalue).closesIn_eq.le
  | operator h hkind ih => exact ih.concat (h.operator hkind).closesIn_eq.le
  | @group before inner opening closing h hopen hinner hclose ih ihinner =>
      obtain ⟨hopens, hcloses⟩ := count_paren_singleton_open hopen
      have hopening : StaysOpen ([] ++ [opening]) :=
        staysOpen_nil.concat (by simp [hopens, hcloses])
      have hwhole : Balanced (before ++ (opening :: inner) ++ [closing]) := by
        simpa using h.group hopen hinner hclose
      rw [← List.append_assoc]
      exact (ih.append (hopening.append ihinner)).concat hwhole.closesIn_eq.le

/-- In a balanced list every opening parenthesis is closed. -/
theorem Balanced.not_unmatched (h : Balanced tokens) (u : Token) : ¬Unmatched tokens u := by
  induction h with
  | nil =>
      rintro ⟨before, after, hsplit, -⟩
      simp at hsplit
  | numeral h hkind hvalue ih =>
      exact fun hu => hu.of_append.elim ih (not_unmatched_singleton (by simp [hkind]))
  | operator h hkind ih =>
      exact fun hu => hu.of_append.elim ih (not_unmatched_singleton (by simp [hkind]))
  | @group before inner opening closing h hopen hinner hclose ih ihinner =>
      intro hu
      rcases hu.of_append with hu | ⟨front, after, hsplit, hkind, hstays⟩
      · exact ih hu
      cases front with
      | nil =>
          -- the closing parenthesis ends what stays open behind the opening one
          obtain ⟨rfl, rfl⟩ := List.cons.inj hsplit
          obtain ⟨hopens, hcloses⟩ := count_paren_singleton_close hclose
          have hle : closesIn (inner ++ [closing]) ≤ opensIn (inner ++ [closing]) := hstays.le
          rw [closesIn_append, opensIn_append_eq_add, hinner.closesIn_eq] at hle
          omega
      | cons _ front =>
          obtain ⟨rfl, hrest⟩ := List.cons.inj hsplit
          have hu : Unmatched (inner ++ [closing]) u := ⟨front, after, hrest, hkind, hstays⟩
          exact hu.of_append.elim ihinner (not_unmatched_singleton (by simp [hclose]))

/-! ## Open parentheses -/

/-- The beginning of a balanced list and its opening parentheses that are not yet closed, the latest
one first. -/
inductive Pending : List Token → List Token → Prop
  | closed {tokens : List Token} : Balanced tokens → Pending tokens []
  | opened {before inner openings : List Token} {opening : Token} : Pending before openings →
      opening.kind = .openParen → Balanced inner →
      Pending (before ++ opening :: inner) (opening :: openings)

namespace Pending

variable {opening : Token} {openings : List Token}

/-- What may follow every balanced list may follow the innermost one. -/
theorem append {more : List Token} (h : Pending tokens openings)
    (hmore : ∀ before, Balanced before → Balanced (before ++ more)) :
    Pending (tokens ++ more) openings := by
  cases h with
  | closed h => exact .closed (hmore _ h)
  | opened h hopen hinner =>
      rw [List.append_assoc, List.cons_append]
      exact .opened h hopen (hmore _ hinner)

/-- A closing parenthesis takes the innermost opening one with it. -/
theorem close (h : Pending tokens (opening :: openings)) (hkind : t.kind = .closeParen) :
    Pending (tokens ++ [t]) openings := by
  cases h with
  | opened h hopen hinner =>
      rw [List.append_assoc, List.cons_append]
      exact h.append fun before hbefore => .group hbefore hopen hinner hkind

theorem not_unmatched (h : Pending tokens []) (u : Token) : ¬Unmatched tokens u := by
  cases h with
  | closed h => exact h.not_unmatched u

/-- The innermost open parenthesis is the last unmatched one. -/
theorem lastUnmatched (h : Pending tokens (opening :: openings)) :
    LastUnmatched tokens opening := by
  cases h with
  | opened h hopen hinner =>
      exact ⟨_, _, rfl, hopen, hinner.staysOpen, hinner.not_unmatched⟩

end Pending

end TaskFarm.Expr
