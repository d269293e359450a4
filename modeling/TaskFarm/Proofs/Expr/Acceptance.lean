import Mathlib.Data.List.Chain
import TaskFarm.Proofs.Expr.Counting

/-!
# What is accepted

A source is accepted if its parentheses match and it has one numeral more than it has operators.
That is less than the infix grammar asks for: in `1 2 +` two operands stand side by side.  It is
enough as soon as no two operands do, which `Separated` says: then each operator is left with an
operand on either side, and no pair of parentheses is empty.

The invariant is `Complete`: a balanced list without adjacent operands never has more numerals than
an expression with as many operators, and it is an expression when it has that many.
-/

namespace TaskFarm.Expr

/-! ## Matching parentheses -/

/-- Numerals that have a value and operators in any order, in parentheses that match. -/
inductive Balanced : List Token → Prop
  | nil : Balanced []
  | numeral {before : List Token} {t : Token} {text : String} {value : Float} :
      Balanced before → t.kind = .numeral text → Decimal.parse? text = some value →
      Balanced (before ++ [t])
  | operator {before : List Token} {t : Token} {op : Operator} :
      Balanced before → t.kind = .operator op → Balanced (before ++ [t])
  | group {before inner : List Token} {opening closing : Token} :
      Balanced before → opening.kind = .openParen → Balanced inner →
      closing.kind = .closeParen → Balanced (before ++ (opening :: inner ++ [closing]))

/-- The beginning of a balanced list, up to which some parentheses have been opened and not yet
closed. -/
inductive Unclosed : Nat → List Token → Prop
  | closed {tokens : List Token} : Balanced tokens → Unclosed 0 tokens
  | opened {n : Nat} {before inner : List Token} {opening : Token} :
      Unclosed n before → opening.kind = .openParen → Balanced inner →
      Unclosed (n + 1) (before ++ opening :: inner)

theorem Unclosed.balanced {tokens : List Token} (h : Unclosed 0 tokens) : Balanced tokens := by
  cases h with
  | closed h => exact h

/-- What may follow every balanced list may follow the innermost one. -/
theorem Unclosed.append {n : Nat} {tokens more : List Token} (h : Unclosed n tokens)
    (hmore : ∀ before, Balanced before → Balanced (before ++ more)) :
    Unclosed n (tokens ++ more) := by
  cases h with
  | closed h => exact .closed (hmore _ h)
  | opened h hopen hinner =>
      rw [List.append_assoc, List.cons_append]
      exact .opened h hopen (hmore _ hinner)

/-- A closing parenthesis takes the innermost opening one with it. -/
theorem Unclosed.close {n : Nat} {tokens : List Token} {t : Token} (h : Unclosed (n + 1) tokens)
    (hkind : t.kind = .closeParen) : Unclosed n (tokens ++ [t]) := by
  cases h with
  | opened h hopen hinner =>
      rw [List.append_assoc, List.cons_append]
      exact h.append fun before hbefore => .group hbefore hopen hinner hkind

/-- The number of opening parentheses on a stack. -/
def opensIn (stack : List Token) : Nat :=
  stack.countP Token.isOpen

theorem opensIn_append {group below : List Token} (h : ∀ u ∈ group, u.isOpen = false) :
    opensIn (group ++ below) = opensIn below := by
  have hnone : group.countP Token.isOpen = 0 := by
    rw [List.countP_eq_zero]
    simpa using h
  rw [opensIn, List.countP_append, hnone, Nat.zero_add, opensIn]

/-- If there is a listing, the tokens are balanced: the stack holds one opening parenthesis for each
that has been read and not closed. -/
theorem balanced_of_postOrderFrom {stack rest out before : List Token}
    (h : postOrderFrom stack rest = .ok out) (hbefore : Unclosed (opensIn stack) before) :
    Balanced (before ++ rest) := by
  induction rest generalizing stack out before with
  | nil =>
      have hnone : opensIn (stack ++ []) = 0 := opensIn_append (drain_eq_ok h).2
      rw [List.append_nil] at hnone
      rw [hnone] at hbefore
      simpa using hbefore.balanced
  | cons t rest ih =>
      rw [List.append_cons]
      rcases postOrderFrom_cases h with
        ⟨text, value, more, hkind, hvalue, hmore, -⟩ | ⟨hkind, hout⟩ |
        ⟨opening, group, below, more, hkind, hopen, rfl, hgroup, hmore, -⟩ |
        ⟨op, group, below, more, hkind, rfl, hgroup, hmore, -⟩
      · exact ih hmore (hbefore.append fun _ h => h.numeral hkind hvalue)
      · have hone : opensIn (t :: stack) = opensIn stack + 1 :=
          List.countP_cons_of_pos (by simp [Token.isOpen, hkind])
        exact ih hout (hone ▸ .opened hbefore hkind .nil)
      · have hone : opensIn (group ++ opening :: below) = opensIn below + 1 :=
          (opensIn_append hgroup).trans (List.countP_cons_of_pos (by simp [Token.isOpen, hopen]))
        exact ih hmore ((hone ▸ hbefore).close hkind)
      · have hsame : opensIn (group ++ below) = opensIn (t :: below) := by
          rw [opensIn_append fun u hu => Token.isOpen_eq_false_of_isOperator (hgroup u hu)]
          exact (List.countP_cons_of_neg (by simp [Token.isOpen, hkind])).symm
        exact ih hmore (hsame ▸ hbefore.append fun _ h => h.operator hkind)

/-! ## Operands apart -/

/-- An operand may end here. -/
def Token.endsOperand (t : Token) : Bool :=
  match t.kind with
  | .numeral _ | .closeParen => true
  | .operator _ | .openParen => false

/-- An operand may start here. -/
def Token.startsOperand (t : Token) : Bool :=
  match t.kind with
  | .numeral _ | .openParen => true
  | .operator _ | .closeParen => false

/-- No operand starts where another one has just ended. -/
def Separated (tokens : List Token) : Prop :=
  tokens.IsChain fun t u => t.endsOperand = false ∨ u.startsOperand = false

instance (tokens : List Token) : Decidable (Separated tokens) :=
  inferInstanceAs (Decidable (tokens.IsChain _))

/-- The last token does not end an operand, and so an operand may follow. -/
def OperandMayFollow (tokens : List Token) : Prop :=
  ∀ t ∈ tokens.getLast?, t.endsOperand = false

@[simp] theorem operandMayFollow_append_singleton {tokens : List Token} {t : Token} :
    OperandMayFollow (tokens ++ [t]) ↔ t.endsOperand = false := by
  simp [OperandMayFollow]

theorem Separated.singleton (t : Token) : Separated [t] :=
  List.IsChain.singleton t

theorem Separated.append {ts us : List Token} (hts : Separated ts) (hus : Separated us)
    (h : OperandMayFollow ts ∨ ∀ u ∈ us.head?, u.startsOperand = false) : Separated (ts ++ us) := by
  refine List.IsChain.append hts hus fun t ht u hu => ?_
  rcases h with h | h
  · exact .inl (h t ht)
  · exact .inr (h u hu)

theorem Derives.separated {level : Level} {tokens : List Token} {tree : OpTree Token}
    (h : Derives level tokens tree) : Separated tokens := by
  have hjoin {left right : List Token} {t : Token} {op : Operator} (hkind : t.kind = .operator op)
      (hl : Separated left) (hr : Separated right) : Separated (left ++ t :: right) := by
    have hright : Separated ([t] ++ right) :=
      (Separated.singleton t).append hr
        (.inl (by simp [OperandMayFollow, Token.endsOperand, hkind]))
    exact hl.append hright (.inr (by simp [Token.startsOperand, hkind]))
  induction h with
  | numeral _ _ => exact Separated.singleton _
  | @group opening closing tokens tree hopen hclose _ ih =>
      have hinner : Separated (tokens ++ [closing]) :=
        ih.append (.singleton closing) (.inr (by simp [Token.startsOperand, hclose]))
      exact (Separated.singleton opening).append hinner
        (.inl (by simp [OperandMayFollow, Token.endsOperand, hopen]))
  | ofFactor _ ih => exact ih
  | multiplicative _ hkind _ _ ihl ihr => exact hjoin hkind ihl ihr
  | ofProduct _ ih => exact ih
  | additive _ hkind _ _ ihl ihr => exact hjoin hkind ihl ihr

/-! ## Counting operands -/

theorem Operator.additive_or_multiplicative (op : Operator) :
    (op = .add ∨ op = .sub) ∨ (op = .mul ∨ op = .div) := by
  cases op <;> simp

/-- An operator and a factor go on with a sum: they join the whole sum, or its last product. -/
theorem Derives.extend {tokens right : List Token} {tree r : OpTree Token} {t : Token}
    {op : Operator} (h : Derives .sum tokens tree) (hkind : t.kind = .operator op)
    (hr : Derives .factor right r) : ∃ whole, Derives .sum (tokens ++ t :: right) whole := by
  rcases op.additive_or_multiplicative with hop | hop
  · exact ⟨_, h.additive hkind hop (.ofFactor hr)⟩
  · cases h with
    | ofProduct h => exact ⟨_, .ofProduct (h.multiplicative hkind hop hr)⟩
    | additive hl hkind' hop' h =>
        rw [List.append_assoc, List.cons_append]
        exact ⟨_, hl.additive hkind' hop' (h.multiplicative hkind hop hr)⟩

/-- The list has no more numerals than an expression with as many operators, and it is an expression
if it has that many. -/
structure Complete (tokens : List Token) : Prop where
  count : numeralsIn tokens ≤ operatorsIn tokens + 1
  derived : numeralsIn tokens = operatorsIn tokens + 1 → ∃ tree, Derives .sum tokens tree

/-- The list has no more numerals than operators, and if it has as many, it is empty or lacks only
the right operand of its last operator. -/
structure Awaiting (tokens : List Token) : Prop where
  count : numeralsIn tokens ≤ operatorsIn tokens
  derived : numeralsIn tokens = operatorsIn tokens → tokens = [] ∨
    ∃ left t op tree, tokens = left ++ [t] ∧ t.kind = .operator op ∧ Derives .sum left tree

/-- An operand completes what awaits one. -/
theorem Awaiting.operand {before operand : List Token} (h : Awaiting before)
    (hcount : numeralsIn operand ≤ operatorsIn operand + 1)
    (hfactor : numeralsIn operand = operatorsIn operand + 1 →
      ∃ tree, Derives .factor operand tree) : Complete (before ++ operand) := by
  have hbefore := h.count
  constructor
  · simp only [numeralsIn_append, operatorsIn_append]
    omega
  · intro hall
    simp only [numeralsIn_append, operatorsIn_append] at hall
    obtain ⟨factor, hfactor⟩ := hfactor (by omega)
    rcases h.derived (by omega) with rfl | ⟨left, t, op, tree, rfl, hkind, hleft⟩
    · exact ⟨factor, .ofProduct (.ofFactor hfactor)⟩
    · obtain ⟨whole, hwhole⟩ := hleft.extend hkind hfactor
      exact ⟨whole, by simpa using hwhole⟩

theorem Awaiting.complete {tokens : List Token} (h : Awaiting tokens) : Complete tokens := by
  have hcount := h.count
  exact ⟨by omega, fun hall => by omega⟩

/-- After an operator another operand is awaited. -/
theorem Complete.operator {before : List Token} {t : Token} {op : Operator} (h : Complete before)
    (hkind : t.kind = .operator op) : Awaiting (before ++ [t]) := by
  have hnumerals : numeralsIn (before ++ [t]) = numeralsIn before := by
    simp [Token.isNumeral, hkind]
  have hoperators : operatorsIn (before ++ [t]) = operatorsIn before + 1 := by
    simp [Token.isOperator, hkind]
  constructor
  · rw [hnumerals, hoperators]
    exact h.count
  · rw [hnumerals, hoperators]
    intro hall
    obtain ⟨tree, htree⟩ := h.derived hall
    exact .inr ⟨before, t, op, tree, rfl, hkind, htree⟩

/-- Parentheses make an operand of a list, in which nothing else is counted. -/
theorem Awaiting.group {before inner : List Token} {opening closing : Token} (h : Awaiting before)
    (hopen : opening.kind = .openParen) (hinner : Complete inner)
    (hclose : closing.kind = .closeParen) :
    Complete (before ++ (opening :: inner ++ [closing])) := by
  have hnumerals : numeralsIn (opening :: inner ++ [closing]) = numeralsIn inner := by
    simp [Token.isNumeral, hopen, hclose]
  have hoperators : operatorsIn (opening :: inner ++ [closing]) = operatorsIn inner := by
    simp [Token.isOperator, hopen, hclose]
  refine h.operand ?_ ?_
  · rw [hnumerals, hoperators]
    exact hinner.count
  · rw [hnumerals, hoperators]
    intro hall
    obtain ⟨tree, htree⟩ := hinner.derived hall
    exact ⟨tree, .group hopen hclose htree⟩

/-- What stands before the start of an operand lets an operand follow. -/
theorem Separated.operandMayFollow {before rest : List Token} {t : Token}
    (h : Separated (before ++ t :: rest)) (hstarts : t.startsOperand = true) :
    OperandMayFollow before := by
  intro u hu
  have hrel := (List.isChain_append.mp h).2.2 u hu t (by simp)
  simpa [hstarts] using hrel

/-- Every balanced list without adjacent operands is complete, and it awaits an operand if one may
follow. -/
theorem Balanced.complete {tokens : List Token} (h : Balanced tokens)
    (hseparated : Separated tokens) :
    Complete tokens ∧ (OperandMayFollow tokens → Awaiting tokens) := by
  induction h with
  | nil =>
      have hempty : Awaiting [] := ⟨le_refl _, fun _ => .inl rfl⟩
      exact ⟨hempty.complete, fun _ => hempty⟩
  | @numeral before t text value _ hkind hvalue ih =>
      have hfollow := hseparated.operandMayFollow (by simp [Token.startsOperand, hkind])
      have hawaiting := (ih hseparated.left_of_append).2 hfollow
      constructor
      · refine hawaiting.operand ?_ fun _ => ⟨_, .numeral hkind hvalue⟩
        simp [Token.isNumeral, Token.isOperator, hkind]
      · simp [Token.endsOperand, hkind]
  | @operator before t op _ hkind ih =>
      have hawaiting := (ih hseparated.left_of_append).1.operator hkind
      exact ⟨hawaiting.complete, fun _ => hawaiting⟩
  | @group before inner opening closing _ hopen _ hclose ih ihinner =>
      have hfollow := hseparated.operandMayFollow (by simp [Token.startsOperand, hopen])
      have hawaiting := (ih hseparated.left_of_append).2 hfollow
      have hinner := (ihinner hseparated.right_of_append.left_of_append.tail).1
      refine ⟨hawaiting.group hopen hinner hclose, ?_⟩
      rw [← List.append_assoc, operandMayFollow_append_singleton]
      simp [Token.endsOperand, hclose]

/-! ## Acceptance -/

/-- What is derived is accepted, and the arena that is built shows the tree of the derivation. -/
theorem Derives.exists_parse {source : String} {tokens : List Token} {tree : OpTree Token}
    (h : Derives .sum tokens tree) (htokens : tokenize source = .ok tokens) :
    ∃ a placed, parse source = .ok a ∧ a.Shows placed ∧ placed.bare = tree.bare := by
  obtain ⟨f, placed, hgrow, hshows, hbare⟩ := Forest.shows_empty.grow_postOrder h.spelledByLabels
  obtain ⟨a, harena, htree⟩ := Arena.shows_of_toArena hshows
  have hbuilt : Arena.ofPostOrder tree.postOrder = .ok a := by
    rw [Arena.ofPostOrder, hgrow]
    exact harena
  refine ⟨a, placed, ?_, htree, hbare⟩
  rw [parse, htokens]
  change (postOrder tokens).bind Arena.ofPostOrder = .ok a
  rw [h.postOrder_eq]
  exact hbuilt

/-- The tokens of a source are derived from the infix grammar just if the source is accepted and no
two operands in it are adjacent. -/
theorem derives_iff_parse_separated (source : String) :
    (∃ tokens tree, tokenize source = .ok tokens ∧ Derives .sum tokens tree) ↔
      ∃ tokens a, tokenize source = .ok tokens ∧ parse source = .ok a ∧ Separated tokens := by
  constructor
  · rintro ⟨tokens, tree, htokens, h⟩
    obtain ⟨a, -, ha, -⟩ := h.exists_parse htokens
    exact ⟨tokens, a, htokens, ha, h.separated⟩
  · rintro ⟨tokens, a, htokens, ha, hseparated⟩
    obtain ⟨tokens', listing, htokens', hlisting, harena⟩ := parse_eq_ok ha
    cases htokens.symm.trans htokens'
    have hcount := count_of_postOrder hlisting harena
    have hbalanced : Balanced tokens := balanced_of_postOrderFrom hlisting (.closed .nil)
    obtain ⟨tree, htree⟩ := (hbalanced.complete hseparated).1.derived hcount
    exact ⟨tokens, tree, htokens, htree⟩

/-- An operator after both of its operands is accepted as if it stood between them. -/
theorem parse_postfix_not_derived :
    ∃ a tokens, parse "1 2 +" = .ok a ∧ tokenize "1 2 +" = .ok tokens ∧
      ¬ ∃ tree, Derives .sum tokens tree := by
  refine ⟨_, _, rfl, rfl, ?_⟩
  rintro ⟨tree, h⟩
  exact absurd h.separated (by decide)

end TaskFarm.Expr
