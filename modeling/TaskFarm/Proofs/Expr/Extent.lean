import TaskFarm.Proofs.Expr.Kinship
import TaskFarm.Proofs.Expr.Matching
import TaskFarm.Proofs.Expr.Placing

/-!
# How far an expression goes

A tree covers the source from its first numeral to its last one.  In front of the first numeral of an
expression there are only opening parentheses, and behind the last one only closing ones; these are
the tokens of the expression that its tree does not cover.  Each of them is matched inside of the
expression, so that what is covered can only match if there are none.
-/

namespace TaskFarm.Expr

/-- What a tree covers of the tokens of its expression: all but the opening parentheses in front and
the closing ones behind. -/
structure Extent (tokens : List Token) (tree : OpTree Token) (opens inner closes : List Token) :
    Prop where
  tokens_eq : tokens = opens ++ inner ++ closes
  opens : ∀ t ∈ opens, t.kind = .openParen
  closes : ∀ t ∈ closes, t.kind = .closeParen
  ends : ∃ first last, inner.head? = some first ∧ inner.getLast? = some last ∧
    (∃ text, first.kind = .numeral text) ∧ tree.cover = first.span.join last.span

/-- An operation is covered from where its left operand begins to where its right one ends. -/
theorem Extent.join {left right opens inner closes opens' inner' closes' : List Token}
    {l r : OpTree Token} (hl : Extent left l opens inner closes)
    (hr : Extent right r opens' inner' closes') (t : Token) (op : Operator) :
    Extent (left ++ t :: right) (.branch t op l r) opens
      (inner ++ (closes ++ t :: opens' ++ inner')) closes' := by
  obtain ⟨first, last, hfirst, hlast, hnumeral, hcover⟩ := hl.ends
  obtain ⟨first', last', hfirst', hlast', hnumeral', hcover'⟩ := hr.ends
  refine ⟨?_, hl.opens, hr.closes, first, last', ?_, ?_, hnumeral, ?_⟩
  · rw [hl.tokens_eq, hr.tokens_eq]
    simp
  · simp [List.head?_append, hfirst]
  · rw [← List.append_assoc, List.getLast?_append, hlast']
    rfl
  · rw [OpTree.cover, hcover, hcover']
    rfl

theorem Derives.exists_extent {level : Level} {tokens : List Token} {tree : OpTree Token}
    (h : Derives level tokens tree) : ∃ opens inner closes, Extent tokens tree opens inner closes := by
  induction h with
  | @numeral t text value hkind hvalue =>
      refine ⟨[], [t], [], rfl, by simp, by simp, t, t, rfl, rfl, ⟨text, hkind⟩, rfl⟩
  | @group opening closing tokens tree hopen hclose _ ih =>
      obtain ⟨opens, inner, closes, h⟩ := ih
      refine ⟨opening :: opens, inner, closes ++ [closing], ?_, ?_, ?_, h.ends⟩
      · rw [h.tokens_eq]
        simp
      · exact List.forall_mem_cons.mpr ⟨hopen, h.opens⟩
      · intro t ht
        rcases List.mem_append.mp ht with ht | ht
        · exact h.closes t ht
        · rw [List.mem_singleton.mp ht, hclose]
  | ofFactor _ ih => exact ih
  | ofProduct _ ih => exact ih
  | multiplicative _ _ _ _ ihl ihr =>
      obtain ⟨opens, inner, closes, hl⟩ := ihl
      obtain ⟨opens', inner', closes', hr⟩ := ihr
      exact ⟨_, _, _, hl.join hr _ _⟩
  | additive _ _ _ _ ihl ihr =>
      obtain ⟨opens, inner, closes, hl⟩ := ihl
      obtain ⟨opens', inner', closes', hr⟩ := ihr
      exact ⟨_, _, _, hl.join hr _ _⟩

theorem Derives.balanced {level : Level} {tokens : List Token} {tree : OpTree Token}
    (h : Derives level tokens tree) : Balanced tokens := by
  have hsum : Derives .sum tokens tree := h.weaken (by cases level <;> decide)
  exact balanced_of_postOrderFrom hsum.postOrder_eq (.closed .nil)

/-! ## Expressions without parentheses around them -/

/-- The tokens are an expression that has no parentheses around it. -/
inductive Outright : List Token → OpTree Token → Prop
  | numeral {t : Token} {text : String} {value : Float} :
      t.kind = .numeral text → Decimal.parse? text = some value → Outright [t] (.leaf t value)
  | operation {t : Token} {op : Operator} {left right : List Token} {l r : OpTree Token} :
      Derives .sum left l → t.kind = .operator op → Derives .sum right r →
      Derives .sum (left ++ t :: right) (.branch t op l r) →
      Outright (left ++ t :: right) (.branch t op l r)

theorem Outright.derives {tokens : List Token} {tree : OpTree Token} (h : Outright tokens tree) :
    Derives .sum tokens tree := by
  cases h with
  | numeral hkind hvalue => exact .ofProduct (.ofFactor (.numeral hkind hvalue))
  | operation _ _ _ h => exact h

/-- The subtrees of an operation are those of its operands and the whole. -/
theorem Outright.exists_part {t : Token} {op : Operator} {left right : List Token}
    {l r part : OpTree Token} (h : Outright (left ++ t :: right) (.branch t op l r))
    (hpart : part ∈ (OpTree.branch t op l r).subtrees)
    (hl : part ∈ l.subtrees → ∃ middle, middle <:+: left ∧ Outright middle part)
    (hr : part ∈ r.subtrees → ∃ middle, middle <:+: right ∧ Outright middle part) :
    ∃ middle, middle <:+: left ++ t :: right ∧ Outright middle part := by
  simp only [OpTree.subtrees, List.mem_append, List.mem_singleton] at hpart
  rcases hpart with (hpart | hpart) | rfl
  · obtain ⟨middle, hin, hmiddle⟩ := hl hpart
    exact ⟨middle, hin.trans (List.prefix_append _ _).isInfix, hmiddle⟩
  · obtain ⟨middle, hin, hmiddle⟩ := hr hpart
    have hright : right <:+ left ++ t :: right :=
      (List.suffix_cons t right).trans (List.suffix_append left _)
    exact ⟨middle, hin.trans hright.isInfix, hmiddle⟩
  · exact ⟨_, List.infix_rfl, h⟩

/-- Every subtree of a derivation has its own expression among the tokens. -/
theorem Derives.exists_outright {level : Level} {tokens : List Token} {tree part : OpTree Token}
    (h : Derives level tokens tree) (hpart : part ∈ tree.subtrees) :
    ∃ middle, middle <:+: tokens ∧ Outright middle part := by
  induction h with
  | numeral hkind hvalue =>
      obtain rfl := List.mem_singleton.mp hpart
      exact ⟨_, List.infix_rfl, .numeral hkind hvalue⟩
  | @group opening closing tokens tree _ _ _ ih =>
      obtain ⟨middle, hin, hmiddle⟩ := ih hpart
      exact ⟨middle, hin.trans ⟨[opening], [closing], rfl⟩, hmiddle⟩
  | ofFactor _ ih => exact ih hpart
  | ofProduct _ ih => exact ih hpart
  | multiplicative hl hkind hop hr ihl ihr =>
      have hwhole := Outright.operation (.ofProduct hl) hkind (.ofProduct (.ofFactor hr))
        (.ofProduct (.multiplicative hl hkind hop hr))
      exact hwhole.exists_part hpart ihl ihr
  | additive hl hkind hop hr ihl ihr =>
      have hwhole := Outright.operation hl hkind (.ofProduct hr) (.additive hl hkind hop hr)
      exact hwhole.exists_part hpart ihl ihr

theorem opensIn_of_forall {tokens : List Token} (h : ∀ t ∈ tokens, t.kind = .openParen) :
    opensIn tokens = tokens.length ∧ closesIn tokens = 0 := by
  constructor
  · exact List.countP_eq_length.mpr fun t ht => by simp [Token.isOpen, h t ht]
  · exact List.countP_eq_zero.mpr fun t ht => by simp [Token.isClose, h t ht]

theorem closesIn_of_forall {tokens : List Token} (h : ∀ t ∈ tokens, t.kind = .closeParen) :
    closesIn tokens = tokens.length ∧ opensIn tokens = 0 := by
  constructor
  · exact List.countP_eq_length.mpr fun t ht => by simp [Token.isClose, h t ht]
  · exact List.countP_eq_zero.mpr fun t ht => by simp [Token.isOpen, h t ht]

/-- What is covered of an expression without parentheses around it is all of it, if the parentheses
in it match. -/
theorem Outright.exists_extent {tokens : List Token} {tree : OpTree Token}
    (h : Outright tokens tree) :
    ∃ opens inner closes, Extent tokens tree opens inner closes ∧
      (Balanced inner → inner = tokens) := by
  have hwhole := h.derives.balanced.closesIn_eq
  cases h with
  | @numeral t text value hkind _ =>
      refine ⟨[], [t], [], ⟨rfl, by simp, by simp, ?_⟩, fun _ => rfl⟩
      exact ⟨t, t, rfl, rfl, ⟨text, hkind⟩, rfl⟩
  | @operation t op left right l r hl hkind hr _ =>
      obtain ⟨opens, inner, closes, hextent⟩ := hl.exists_extent
      obtain ⟨opens', inner', closes', hextent'⟩ := hr.exists_extent
      have hjoin := hextent.join hextent' t op
      refine ⟨_, _, _, hjoin, fun hbalanced => ?_⟩
      obtain ⟨hopens, hcloses⟩ := opensIn_of_forall hextent.opens
      obtain ⟨hcloses', hopens'⟩ := closesIn_of_forall hextent'.closes
      have hmiddle := hbalanced.closesIn_eq
      -- what the left operand opens in front it closes again before the operator
      have hstays : closesIn (inner ++ closes) ≤ opensIn (inner ++ closes) :=
        hbalanced.staysOpen (inner ++ closes) (by simp)
      have hleft := hl.balanced.closesIn_eq
      rw [hextent.tokens_eq] at hleft
      rw [hjoin.tokens_eq] at hwhole ⊢
      simp only [closesIn_append, opensIn_append_eq_add] at hstays hleft hwhole hmiddle
      have hnone : opens = [] := List.length_eq_zero_iff.mp (by omega)
      have hnone' : closes' = [] := List.length_eq_zero_iff.mp (by omega)
      rw [hnone, hnone', List.nil_append, List.append_nil]

end TaskFarm.Expr
