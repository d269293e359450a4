import TaskFarm.Proofs.Expr.Matching
import TaskFarm.Proofs.Expr.Offence

/-!
# What the post-order keeps of a token list

Putting a token list into post-order drops the parentheses and moves the operators, and keeps all
else.  It fails at the first token that is no number or closes nothing, or else at the last
parenthesis that is never closed.  The invariant of the operator stack is `Halfway`: the parentheses
on it are those that are still open, and what has gone out and the operators on the stack are what
has been read.
-/

namespace TaskFarm.Expr

/-- The rule for the next token of an infix list: a numeral has to be a number, and a closing
parenthesis needs an open one. -/
inductive Disturbs (before : List Token) (t : Token) : CompileError → Prop
  | unreadable {text : String} : t.kind = .numeral text → Decimal.parse? text = none →
      Disturbs before t (.malformedToken text t.span)
  | stray : t.kind = .closeParen → (∀ u, ¬Unmatched before u) →
      Disturbs before t (.mismatchedParentheses t.span)

/-- The tokens without the parentheses. -/
def bareTokens (tokens : List Token) : List Token :=
  tokens.filter fun t => !t.isParen

@[simp] theorem bareTokens_append (ts us : List Token) :
    bareTokens (ts ++ us) = bareTokens ts ++ bareTokens us :=
  List.filter_append ..

/-! ## The operator stack -/

/-- Reading the beginning of a token list has sent some tokens out and has left others on the
stack. -/
structure Halfway (before out stack : List Token) : Prop where
  reads : ∀ rest, postOrderFrom [] (before ++ rest) = prepend out (postOrderFrom stack rest)
  pending : Pending before (stack.filter Token.isOpen)
  waiting : ∀ t ∈ stack, t.isOpen = true ∨ t.isOperator = true
  perm : (out ++ bareTokens stack).Perm (bareTokens before)
  numerals : out.filter Token.isNumeral = before.filter Token.isNumeral

theorem halfway_nil : Halfway [] [] [] where
  reads rest := (prepend_nil _).symm
  pending := .closed .nil
  waiting := by simp
  perm := List.Perm.refl _
  numerals := rfl

/-- Without parentheses on it, a stack holds operators. -/
theorem isOperator_of_filter_isOpen {stack : List Token}
    (hwaiting : ∀ t ∈ stack, t.isOpen = true ∨ t.isOperator = true)
    (hnone : stack.filter Token.isOpen = []) : ∀ t ∈ stack, t.isOperator = true := by
  intro t ht
  exact (hwaiting t ht).resolve_left (List.filter_eq_nil_iff.mp hnone t ht)

/-- Operators are neither parentheses nor numerals. -/
theorem filters_of_isOperator {group : List Token} (h : ∀ t ∈ group, t.isOperator = true) :
    group.filter Token.isOpen = [] ∧ bareTokens group = group ∧
      group.filter Token.isNumeral = [] := by
  have hkinds : ∀ t ∈ group, t.isOpen = false ∧ t.isParen = false ∧ t.isNumeral = false := by
    intro t ht
    have hop := h t ht
    unfold Token.isOperator at hop
    split at hop
    · next op hkind =>
      simp [Token.isParen, Token.isOpen, Token.isClose, Token.isNumeral, hkind]
    · cases hop
  refine ⟨?_, ?_, ?_⟩
  · exact List.filter_eq_nil_iff.mpr fun t ht => by simp [(hkinds t ht).1]
  · exact List.filter_eq_self.mpr fun t ht => by simp [(hkinds t ht).2.1]
  · exact List.filter_eq_nil_iff.mpr fun t ht => by simp [(hkinds t ht).2.2]

theorem closeGroup?_eq_none {stack : List Token} (h : closeGroup? stack = none) :
    stack.filter Token.isOpen = [] := by
  unfold closeGroup? at h
  split at h
  · next hdrop =>
    rw [List.filter_eq_nil_iff]
    simpa using List.dropWhile_eq_nil_iff.mp hdrop
  · cases h

theorem bindsAt_zero (t : Token) : bindsAt 0 t = t.isOperator := by
  unfold bindsAt Token.isOperator
  cases t.kind <;> simp

theorem drain_of_filter_isOpen {stack openings : List Token} {opening : Token}
    (hwaiting : ∀ t ∈ stack, t.isOpen = true ∨ t.isOperator = true)
    (hopen : stack.filter Token.isOpen = opening :: openings) :
    drain stack = .error (.mismatchedParentheses opening.span) := by
  induction stack with
  | nil => cases hopen
  | cons t stack ih =>
      obtain ⟨ht, hrest⟩ := List.forall_mem_cons.mp hwaiting
      cases hkind : t.kind with
      | openParen =>
          rw [List.filter_cons_of_pos (by simp [Token.isOpen, hkind])] at hopen
          obtain ⟨rfl, -⟩ := List.cons.inj hopen
          simp [drain, hkind]
      | operator op =>
          rw [List.filter_cons_of_neg (by simp [Token.isOpen, hkind])] at hopen
          simp [drain, hkind, ih hrest hopen, Except.map]
      | numeral text => simp [Token.isOpen, Token.isOperator, hkind] at ht
      | closeParen => simp [Token.isOpen, Token.isOperator, hkind] at ht

namespace Halfway

variable {before out stack : List Token} {t : Token}

/-- What one more token does is said of the stack alone. -/
theorem reads_concat (h : Halfway before out stack) {more stack' : List Token}
    (hstep : ∀ rest, postOrderFrom stack (t :: rest) = prepend more (postOrderFrom stack' rest))
    (rest : List Token) :
    postOrderFrom [] (before ++ [t] ++ rest) =
      prepend (out ++ more) (postOrderFrom stack' rest) := by
  rw [List.append_assoc, List.singleton_append, h.reads, hstep, prepend_prepend]

theorem perm_concat {out waiting bare : List Token} (h : (out ++ waiting).Perm bare) (t : Token) :
    (out ++ [t] ++ waiting).Perm (bare ++ [t]) := by
  have hmove : (out ++ ([t] ++ waiting)).Perm (out ++ (waiting ++ [t])) :=
    List.perm_append_comm.append_left out
  rw [List.append_assoc]
  exact hmove.trans (List.append_assoc out waiting [t] ▸ h.append_right [t])

theorem numeral (h : Halfway before out stack) {text : String} {value : Float}
    (hkind : t.kind = .numeral text) (hvalue : Decimal.parse? text = some value) :
    Halfway (before ++ [t]) (out ++ [t]) stack where
  reads := h.reads_concat (postOrderFrom_numeral hkind hvalue stack)
  pending := h.pending.append fun _ hbefore => hbefore.numeral hkind hvalue
  waiting := h.waiting
  perm := by
    have hbare : bareTokens [t] = [t] := by simp [bareTokens, Token.isParen_of_numeral hkind]
    rw [bareTokens_append, hbare]
    exact perm_concat h.perm t
  numerals := by rw [List.filter_append, List.filter_append, h.numerals]

theorem openParen (h : Halfway before out stack) (hkind : t.kind = .openParen) :
    Halfway (before ++ [t]) out (t :: stack) where
  reads rest := by
    rw [← List.append_nil out]
    refine h.reads_concat (fun rest => ?_) rest
    rw [postOrderFrom_open hkind, prepend_nil]
  pending := by
    rw [List.filter_cons_of_pos (by simp [Token.isOpen, hkind])]
    exact .opened h.pending hkind .nil
  waiting := by
    refine List.forall_mem_cons.mpr ⟨.inl (by simp [Token.isOpen, hkind]), h.waiting⟩
  perm := by
    have hparen : t.isParen = true := by simp [Token.isParen, Token.isOpen, hkind]
    simpa [bareTokens, hparen] using h.perm
  numerals := by simp [h.numerals, Token.isNumeral, hkind]

theorem operator (h : Halfway before out stack) {op : Operator} (hkind : t.kind = .operator op) :
    Halfway (before ++ [t]) (out ++ stack.takeWhile (goesBefore op))
      (t :: stack.dropWhile (goesBefore op)) := by
  have hgroup : ∀ u ∈ stack.takeWhile (goesBefore op), u.isOperator = true :=
    fun u hu => isOperator_of_goesBefore (List.mem_takeWhile_imp hu)
  obtain ⟨hopens, hbare, hnumerals⟩ := filters_of_isOperator hgroup
  have hparen : t.isParen = false := Token.isParen_of_operator hkind
  have hstack := List.takeWhile_append_dropWhile (p := goesBefore op) (l := stack)
  refine ⟨?_, ?_, ?_, ?_, ?_⟩
  · exact h.reads_concat fun rest => by simp [postOrderFrom, hkind, prepend]
  · have hpending := h.pending.append fun _ hbefore => hbefore.operator hkind
    rw [← hstack, List.filter_append, hopens, List.nil_append] at hpending
    rwa [List.filter_cons_of_neg (by simp [Token.isOpen, hkind])]
  · refine List.forall_mem_cons.mpr ⟨.inr (by simp [Token.isOperator, hkind]), fun u hu => ?_⟩
    exact h.waiting u (List.dropWhile_subset _ hu)
  · have hperm := h.perm
    rw [← hstack, bareTokens_append, hbare, ← List.append_assoc] at hperm
    simpa [bareTokens, hparen] using perm_concat hperm t
  · simp [h.numerals, hnumerals, Token.isNumeral, hkind]

/-- A closing parenthesis sends out the operators above the innermost open one. -/
theorem closeParen (h : Halfway before out stack) (hkind : t.kind = .closeParen) {u : Token}
    (hu : Unmatched before u) : ∃ group below, Halfway (before ++ [t]) (out ++ group) below := by
  cases hclose : closeGroup? stack with
  | none =>
      have hpending := h.pending
      rw [closeGroup?_eq_none hclose] at hpending
      exact absurd hu (hpending.not_unmatched u)
  | some parts =>
      obtain ⟨group, below⟩ := parts
      obtain ⟨opening, hopen, rfl, hclosed⟩ := closeGroup?_eq_some hclose
      have hgroup : ∀ v ∈ group, v.isOperator = true := by
        intro v hv
        refine (h.waiting v (List.mem_append_left _ hv)).resolve_left ?_
        simp [hclosed v hv]
      obtain ⟨hopens, hbare, hnumerals⟩ := filters_of_isOperator hgroup
      have hisOpen : opening.isOpen = true := by simp [Token.isOpen, hopen]
      refine ⟨group, below, ?_, ?_, ?_, ?_, ?_⟩
      · exact h.reads_concat fun rest => by simp [postOrderFrom, hkind, hclose, prepend]
      · have hpending := h.pending
        rw [List.filter_append, hopens, List.nil_append, List.filter_cons_of_pos hisOpen]
          at hpending
        exact hpending.close hkind
      · exact fun v hv => h.waiting v (List.mem_append_right _ (List.mem_cons_of_mem _ hv))
      · have hparen : opening.isParen = true := by simp [Token.isParen, hisOpen]
        have hparen' : t.isParen = true := by simp [Token.isParen, Token.isClose, hkind]
        have hperm := h.perm
        rw [bareTokens_append, hbare, ← List.append_assoc] at hperm
        simpa [bareTokens, hparen, hparen'] using hperm
      · simp [h.numerals, hnumerals, Token.isNumeral, hkind]

/-- A closing parenthesis for which there is no open one ends the reading. -/
theorem stray (h : Halfway before out stack) (hkind : t.kind = .closeParen)
    (hnone : ∀ u, ¬Unmatched before u) (rest : List Token) :
    postOrderFrom stack (t :: rest) = .error (.mismatchedParentheses t.span) := by
  cases hclose : closeGroup? stack with
  | none => simp [postOrderFrom, hkind, hclose]
  | some parts =>
      obtain ⟨group, below⟩ := parts
      obtain ⟨opening, hopen, rfl, -⟩ := closeGroup?_eq_some hclose
      cases hopens : (group ++ opening :: below).filter Token.isOpen with
      | nil =>
          have hnot := List.filter_eq_nil_iff.mp hopens opening (by simp)
          simp [Token.isOpen, hopen] at hnot
      | cons first openings =>
          have hpending := h.pending
          rw [hopens] at hpending
          exact absurd hpending.lastUnmatched.unmatched (hnone first)

/-- One more token is read, unless it disturbs. -/
theorem next (h : Halfway before out stack) (ht : ∀ e, ¬Disturbs before t e) :
    ∃ out' stack', Halfway (before ++ [t]) out' stack' := by
  cases hkind : t.kind with
  | numeral text =>
      cases hvalue : Decimal.parse? text with
      | none => exact absurd (.unreadable hkind hvalue) (ht _)
      | some value => exact ⟨_, _, h.numeral hkind hvalue⟩
  | operator op => exact ⟨_, _, h.operator hkind⟩
  | openParen => exact ⟨_, _, h.openParen hkind⟩
  | closeParen =>
      obtain ⟨u, hu⟩ : ∃ u, Unmatched before u := by
        by_contra hnone
        exact ht _ (.stray hkind fun u hu => hnone ⟨u, hu⟩)
      obtain ⟨group, below, hnext⟩ := h.closeParen hkind hu
      exact ⟨_, _, hnext⟩

/-- A token that disturbs ends the reading with its error. -/
theorem disturbed (h : Halfway before out stack) {e : CompileError} (ht : Disturbs before t e)
    (rest : List Token) : postOrderFrom [] (before ++ t :: rest) = .error e := by
  rw [h.reads]
  cases ht with
  | unreadable hkind hnone =>
      simp [postOrderFrom, hkind, hnone, prepend, Except.map]
  | stray hkind hnone =>
      rw [h.stray hkind hnone]
      rfl

end Halfway

theorem exists_halfway {tokens : List Token} (h : Inoffensive Disturbs tokens) :
    ∃ out stack, Halfway tokens out stack := by
  induction tokens using List.reverseRecOn with
  | nil => exact ⟨[], [], halfway_nil⟩
  | append_singleton tokens t ih =>
      obtain ⟨hbefore, ht⟩ := inoffensive_concat.mp h
      obtain ⟨out, stack, hhalf⟩ := ih hbefore
      exact hhalf.next ht

/-! ## What comes out -/

/-- The listing has the tokens of the source without the parentheses, and the numerals among them
in their order. -/
structure Rearranges (tokens out : List Token) : Prop where
  noParen : ∀ t ∈ out, t.isParen = false
  perm : out.Perm (bareTokens tokens)
  numerals : out.filter Token.isNumeral = tokens.filter Token.isNumeral

/-- What comes of putting a token list into post-order. -/
inductive Reordered (tokens : List Token) : Except CompileError (List Token) → Prop
  | listing {out : List Token} : Inoffensive Disturbs tokens → (∀ t, ¬Unmatched tokens t) →
      Rearranges tokens out → Reordered tokens (.ok out)
  | disturbed {e : CompileError} : FirstOffence Disturbs tokens e → Reordered tokens (.error e)
  | unclosed {opening : Token} : Inoffensive Disturbs tokens → LastUnmatched tokens opening →
      Reordered tokens (.error (.mismatchedParentheses opening.span))

/-- At the end the operators on the stack go out, unless a parenthesis is still open. -/
theorem Halfway.reordered {tokens out stack : List Token} (h : Halfway tokens out stack)
    (hclean : Inoffensive Disturbs tokens) : Reordered tokens (postOrder tokens) := by
  have hreads := h.reads []
  rw [List.append_nil] at hreads
  rw [postOrder, hreads, postOrderFrom]
  have hpending := h.pending
  cases hopens : stack.filter Token.isOpen with
  | nil =>
      rw [hopens] at hpending
      have hoperators := isOperator_of_filter_isOpen h.waiting hopens
      obtain ⟨-, hbare, hnumerals⟩ := filters_of_isOperator hoperators
      have hperm := h.perm
      rw [hbare] at hperm
      rw [drain_operators fun t ht => (bindsAt_zero t).trans (hoperators t ht)]
      refine .listing hclean hpending.not_unmatched ⟨fun t ht => ?_, hperm, ?_⟩
      · simpa using (List.mem_filter.mp (hperm.subset ht)).2
      · rw [List.filter_append, h.numerals, hnumerals, List.append_nil]
  | cons opening openings =>
      rw [hopens] at hpending
      rw [drain_of_filter_isOpen h.waiting hopens]
      exact .unclosed hclean hpending.lastUnmatched

theorem reordered_postOrder (tokens : List Token) : Reordered tokens (postOrder tokens) := by
  by_cases hclean : Inoffensive Disturbs tokens
  · obtain ⟨out, stack, h⟩ := exists_halfway hclean
    exact h.reordered hclean
  · obtain ⟨e, hfirst⟩ : ∃ e, FirstOffence Disturbs tokens e := by
      by_contra hnone
      exact hclean (inoffensive_iff.mpr fun e he => hnone ⟨e, he⟩)
    obtain ⟨before, t, after, rfl, hbefore, ht⟩ := hfirst
    obtain ⟨out, stack, h⟩ := exists_halfway hbefore
    rw [postOrder, h.disturbed ht after]
    exact .disturbed ⟨before, t, after, rfl, hbefore, ht⟩

/-- Putting a token list into post-order succeeds exactly if no token disturbs and every open
parenthesis is closed.  Then nothing but the parentheses is lost, no token has changed, and the
numerals keep their order; and otherwise the error names the first token that disturbs, or else the
last parenthesis that is never closed. -/
theorem postOrder_exact (tokens : List Token) :
    ((∃ out, postOrder tokens = .ok out) ↔
      Inoffensive Disturbs tokens ∧ ∀ t, ¬Unmatched tokens t) ∧
    (∀ out, postOrder tokens = .ok out → Rearranges tokens out) ∧
    ∀ e, postOrder tokens = .error e →
      FirstOffence Disturbs tokens e ∨
        (Inoffensive Disturbs tokens ∧ ∃ opening, LastUnmatched tokens opening ∧
          e = .mismatchedParentheses opening.span) := by
  have hreordered := reordered_postOrder tokens
  cases hresult : postOrder tokens with
  | ok out =>
      rw [hresult] at hreordered
      cases hreordered with
      | listing hclean hclosed hout =>
          refine ⟨⟨fun _ => ⟨hclean, hclosed⟩, fun _ => ⟨out, rfl⟩⟩, ?_, by simp⟩
          rintro other hother
          cases hother
          exact hout
  | error e =>
      rw [hresult] at hreordered
      cases hreordered with
      | disturbed hfirst =>
          refine ⟨⟨by simp, fun h => ?_⟩, by simp, ?_⟩
          · exact absurd hfirst (inoffensive_iff.mp h.1 e)
          · rintro e' he'
            cases he'
            exact .inl hfirst
      | unclosed hclean hlast =>
          refine ⟨⟨by simp, fun h => ?_⟩, by simp, ?_⟩
          · exact absurd hlast.unmatched (h.2 _)
          · rintro e' he'
            cases he'
            exact .inr ⟨hclean, _, hlast, rfl⟩

/-- Of `8-(3-1)` only the parentheses are lost.  Without its end the list has a parenthesis that is
never closed, which the error names. -/
theorem postOrder_exact_nested :
    let opened : List Token := [⟨.numeral "8", ⟨0, 1⟩⟩, ⟨.operator .sub, ⟨1, 2⟩⟩,
      ⟨.openParen, ⟨2, 3⟩⟩, ⟨.numeral "3", ⟨3, 4⟩⟩, ⟨.operator .sub, ⟨4, 5⟩⟩,
      ⟨.numeral "1", ⟨5, 6⟩⟩]
    (∃ out, postOrder (opened ++ [⟨.closeParen, ⟨6, 7⟩⟩]) = .ok out ∧ out.length = 5 ∧
      Rearranges (opened ++ [⟨.closeParen, ⟨6, 7⟩⟩]) out) ∧
    postOrder opened = .error (.mismatchedParentheses ⟨2, 3⟩) ∧
      ¬(Inoffensive Disturbs opened ∧ ∀ t, ¬Unmatched opened t) := by
  intro opened
  have hfails : postOrder opened = .error (.mismatchedParentheses ⟨2, 3⟩) := rfl
  refine ⟨⟨_, rfl, rfl, (postOrder_exact _).2.1 _ rfl⟩, hfails, fun hclosed => ?_⟩
  obtain ⟨out, hout⟩ := (postOrder_exact opened).1.mpr hclosed
  cases hfails.symm.trans hout

end TaskFarm.Expr
