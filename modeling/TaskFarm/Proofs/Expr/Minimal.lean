import TaskFarm.Proofs.Decimal.Whole
import TaskFarm.Proofs.Expr.Reprint

/-!
# Formulas with the fewest parentheses

A formula over whole numbers is written with those parentheses only that precedence and association
to the left ask for.  This text is read back as the formula: the operators of a formula without
parentheses around it are those of its level in the infix grammar, so that a left operand of the
same level needs no parentheses and a right one does.
-/

namespace TaskFarm.Expr

/-! ## Formulas -/

/-- The digits of a whole number, as they are written. -/
structure Literal where
  digits : List Char
  ne_nil : digits ≠ []
  isDigit : ∀ c ∈ digits, Decimal.isDigit c = true

namespace Literal

/-- The digits of a number without zeros in front. -/
def ofNat (n : Nat) : Literal where
  digits := Nat.toDigits 10 n
  ne_nil := Nat.toDigits_ne_nil
  isDigit := fun _ => Decimal.isDigit_of_mem_toDigits

/-- The double that is nearest to the number. -/
def value (l : Literal) : Float :=
  Decimal.Scientific.nearest ⟨Decimal.digitsValue l.digits, 0⟩

/-- The digits read as the number that they spell. -/
theorem parse?_eq (l : Literal) : Decimal.parse? (String.ofList l.digits) = some l.value := by
  have hread := (Decimal.Plain.whole l.ne_nil l.isDigit).read?_eq false
  rw [Decimal.readMagnitude_digits l.ne_nil l.isDigit] at hread
  rw [Decimal.parse?, String.toList_ofList]
  exact congrArg (Option.map _) hread

/-- Up to `2 ^ 53` the double of a number is written as the number. -/
theorem text_value_ofNat {n : Nat} (h : n ≤ 2 ^ 53) :
    (Decimal.text (ofNat n).value).toList = (ofNat n).digits := by
  have hvalue : Decimal.digitsValue (Nat.toDigits 10 n) = n := Nat.ofDigitChars_ten_toDigits
  rw [value, ofNat, hvalue]
  exact Decimal.text_nearest h

end Literal

/-- An expression over whole numbers. -/
inductive Formula where
  | literal (l : Literal)
  | operation (op : Operator) (left right : Formula)

namespace Formula

def operators : Formula → Nat
  | literal _ => 0
  | operation _ l r => l.operators + r.operators + 1

def literals : Formula → List Literal
  | literal l => [l]
  | operation _ l r => l.literals ++ r.literals

/-- The number of nodes. -/
def size : Formula → Nat
  | literal _ => 1
  | operation _ l r => l.size + r.size + 1

/-- The post-order listing of the formula, whose first node has the given index. -/
def listing (first : Nat) : Formula → List Node
  | literal l => [.number l.value]
  | operation op l r =>
    l.listing first ++ r.listing (first + l.size) ++
      [.binary op (first + l.size - 1) (first + l.size + r.size - 1)]

/-- The formula with all its parentheses, where the literals are written as the function says. -/
def fullBy (write : Literal → List Char) : Formula → List Char
  | literal l => write l
  | operation op l r => '(' :: l.fullBy write ++ [' ', op.symbol, ' '] ++ r.fullBy write ++ [')']

/-- The formula with all its parentheses. -/
def full : Formula → List Char :=
  fullBy Literal.digits

/-- The operator on top of the formula is as the test wants it; a literal has none. -/
def topIs (test : Operator → Bool) : Formula → Bool
  | literal _ => false
  | operation op _ _ => test op

def parenthesize (needed : Bool) (text : List Char) : List Char :=
  if needed then '(' :: text ++ [')'] else text

/-- The formula without blanks, where a left operand stands in parentheses just if its operator binds
less tightly, and a right operand just if its operator does not bind more tightly. -/
def minimal : Formula → List Char
  | literal l => l.digits
  | operation op l r =>
    parenthesize (l.topIs fun inner => inner.precedence < op.precedence) l.minimal ++
      op.symbol ::
        parenthesize (r.topIs fun inner => inner.precedence ≤ op.precedence) r.minimal

/-- The operators and the values of the formula. -/
def tree : Formula → OpTree Unit
  | literal l => .leaf () l.value
  | operation op l r => .branch () op l.tree r.tree

end Formula

/-! ## Levels -/

/-- The level of an operation with this operator. -/
def Operator.level : Operator → Level
  | .add | .sub => .sum
  | .mul | .div => .product

/-- The level of the right operand of an operation. -/
def Operator.rightLevel : Operator → Level
  | .add | .sub => .product
  | .mul | .div => .factor

@[simp] theorem Operator.strength_level (op : Operator) : op.level.strength = op.precedence := by
  cases op <;> rfl

@[simp] theorem Operator.strength_rightLevel (op : Operator) :
    op.rightLevel.strength = op.precedence + 1 := by
  cases op <;> rfl

theorem Level.strength_le_factor (level : Level) : level.strength ≤ Level.factor.strength := by
  cases level <;> decide

theorem Derives.operation {t : Token} {op : Operator} {left right : List Token}
    {l r : OpTree Token} (hl : Derives op.level left l) (hkind : t.kind = .operator op)
    (hr : Derives op.rightLevel right r) :
    Derives op.level (left ++ t :: right) (.branch t op l r) := by
  cases op with
  | add => exact .additive hl hkind (.inl rfl) hr
  | sub => exact .additive hl hkind (.inr rfl) hr
  | mul => exact .multiplicative hl hkind (.inl rfl) hr
  | div => exact .multiplicative hl hkind (.inr rfl) hr

/-! ## Texts that spell a tree -/

/-- Behind any text the characters are scanned by themselves, if no numeral goes on behind them.
Their tokens are derived at the level with the given operators and operands, and a minus behind them
is an operator. -/
structure Spells (level : Level) (cs : List Char) (shape : OpTree Unit) : Prop where
  scanned : ∀ before rest : List Char, (∀ c, rest.head? = some c → numeralChar c = false) →
    ∃ tokens tree, Derives level tokens tree ∧ tree.bare = shape ∧
      scanBehind before (cs ++ rest) = prepend tokens (scanBehind (before ++ cs) rest)
  closed : ∀ before : List Char, ¬SignPlace (before ++ cs)

namespace Spells

variable {level : Level} {cs ds : List Char} {shape shape' : OpTree Unit}

theorem weaken {weaker : Level} (h : Spells level cs shape)
    (hle : weaker.strength ≤ level.strength) : Spells weaker cs shape := by
  refine ⟨fun before rest hrest => ?_, h.closed⟩
  obtain ⟨tokens, tree, hderives, hbare, hscan⟩ := h.scanned before rest hrest
  exact ⟨tokens, tree, hderives.weaken hle, hbare, hscan⟩

theorem literal (l : Literal) : Spells .factor l.digits (.leaf () l.value) := by
  have hrun : ∀ c ∈ l.digits, numeralChar c = true := by
    intro c hc
    simp [numeralChar, l.isDigit c hc]
  constructor
  · intro before rest hrest
    exact ⟨_, _, .numeral rfl l.parse?_eq, rfl,
      scanBehind_lexeme (.unsigned l.ne_nil hrun) fun _ _ => hrest⟩
  · intro before
    obtain ⟨front, c, hdigits⟩ := (List.eq_nil_or_concat l.digits).resolve_left l.ne_nil
    have hc : Decimal.isDigit c = true := l.isDigit c (by simp [hdigits])
    rw [hdigits, List.concat_eq_append, ← List.append_assoc]
    refine not_signPlace_append fun hmem => ?_
    simp only [List.mem_cons, List.not_mem_nil, or_false] at hmem
    rcases hmem with rfl | rfl | rfl | rfl <;> exact absurd hc (by decide)

/-- In parentheses a sum is a factor. -/
theorem group (h : Spells .sum cs shape) : Spells .factor ('(' :: cs ++ [')']) shape := by
  constructor
  · intro before rest hrest
    let opening := Token.behind before ['('] .openParen
    let closing := Token.behind (before ++ ['('] ++ cs) [')'] .closeParen
    have hclosing : ∀ c, (')' :: rest).head? = some c → numeralChar c = false := by
      rintro c ⟨⟩
      decide
    obtain ⟨tokens, tree, hderives, hbare, hscan⟩ := h.scanned (before ++ ['(']) (')' :: rest) hclosing
    have hopen (ds : List Char) :
        scanBehind before ('(' :: ds) = prepend [opening] (scanBehind (before ++ ['(']) ds) :=
      scanBehind_lexeme .openParen (ends_of_ne_numeral (by simp) _)
    have hclose : scanBehind (before ++ ['('] ++ cs) (')' :: rest) =
        prepend [closing] (scanBehind (before ++ ['('] ++ cs ++ [')']) rest) :=
      scanBehind_lexeme .closeParen (ends_of_ne_numeral (by simp) _)
    refine ⟨opening :: tokens ++ [closing], tree, .group rfl rfl hderives, hbare, ?_⟩
    calc
      scanBehind before ('(' :: cs ++ [')'] ++ rest)
          = scanBehind before ('(' :: (cs ++ ')' :: rest)) := by simp
      _ = prepend [opening] (prepend tokens (prepend [closing]
            (scanBehind (before ++ ['('] ++ cs ++ [')']) rest))) := by
        rw [hopen, hscan, hclose]
      _ = _ := by simp
  · intro before
    rw [← List.append_assoc]
    exact not_signPlace_append (by decide)

/-- An operator joins an operand of its own level on its left and one of the next level on its
right. -/
theorem operation (op : Operator) (hl : Spells op.level cs shape)
    (hr : Spells op.rightLevel ds shape') :
    Spells op.level (cs ++ op.symbol :: ds) (.branch () op shape shape') := by
  constructor
  · intro before rest hrest
    let sign := Token.behind (before ++ cs) [op.symbol] (.operator op)
    have hsymbol : ∀ c, (op.symbol :: (ds ++ rest)).head? = some c → numeralChar c = false := by
      rintro c ⟨⟩
      exact numeralChar_symbol op
    obtain ⟨left, l, hleft, hbareL, hscanL⟩ := hl.scanned before _ hsymbol
    obtain ⟨right, r, hright, hbareR, hscanR⟩ := hr.scanned (before ++ cs ++ [op.symbol]) rest hrest
    have hsign : scanBehind (before ++ cs) (op.symbol :: (ds ++ rest)) =
        prepend [sign] (scanBehind (before ++ cs ++ [op.symbol]) (ds ++ rest)) :=
      scanBehind_lexeme (.operator fun _ => hl.closed before) (ends_of_ne_numeral (by simp) _)
    refine ⟨left ++ sign :: right, .branch sign op l r, hleft.operation rfl hright, ?_, ?_⟩
    · rw [OpTree.bare, hbareL, hbareR]
    · calc
        scanBehind before (cs ++ op.symbol :: ds ++ rest)
            = scanBehind before (cs ++ op.symbol :: (ds ++ rest)) := by simp
        _ = prepend left (prepend [sign] (prepend right
              (scanBehind (before ++ cs ++ [op.symbol] ++ ds) rest))) := by
          rw [hscanL, hsign, hscanR]
        _ = _ := by simp
  · intro before
    have hassoc : before ++ (cs ++ op.symbol :: ds) = before ++ cs ++ [op.symbol] ++ ds := by simp
    rw [hassoc]
    exact hr.closed _

end Spells

namespace Formula

/-- The level at which the formula stands without parentheses. -/
def level : Formula → Level
  | literal _ => .factor
  | operation op _ _ => op.level

/-- In parentheses, or without them at its own level, a formula stands where it is wanted. -/
theorem spells_parenthesize {e : Formula} (h : Spells e.level e.minimal e.tree) {level : Level}
    {needed : Bool} (hneeded : needed = false → level.strength ≤ e.level.strength) :
    Spells level (parenthesize needed e.minimal) e.tree := by
  cases needed with
  | false => exact h.weaken (hneeded rfl)
  | true =>
      have hsum : Level.sum.strength ≤ e.level.strength := by cases e.level <;> decide
      exact (h.weaken hsum).group.weaken level.strength_le_factor

/-- The minimal text spells the formula: an operand that stands without parentheses binds as tightly
as its side of the operator wants it. -/
theorem spells (e : Formula) : Spells e.level e.minimal e.tree := by
  induction e with
  | literal l => exact .literal l
  | operation op l r ihl ihr =>
      refine .operation op (spells_parenthesize ihl ?_) (spells_parenthesize ihr ?_)
      · cases l with
        | literal l => exact fun _ => Level.strength_le_factor _
        | operation inner _ _ => simp [topIs, level]
      · cases r with
        | literal l => exact fun _ => Level.strength_le_factor _
        | operation inner _ _ =>
            simp only [topIs, level, decide_eq_false_iff_not, Operator.strength_level,
              Operator.strength_rightLevel]
            omega

/-! ## The arena of a formula -/

/-- The formula with the indices of its nodes in the post-order listing. -/
def placed (first : Nat) : Formula → OpTree Nat
  | literal l => .leaf first l.value
  | operation op l r =>
    .branch (first + l.size + r.size) op (l.placed first) (r.placed (first + l.size))

theorem size_pos (e : Formula) : 0 < e.size := by
  cases e with
  | literal l => exact Nat.one_pos
  | operation op l r => exact Nat.succ_pos _

theorem bare_placed (e : Formula) (first : Nat) : (e.placed first).bare = e.tree := by
  induction e generalizing first with
  | literal l => rfl
  | operation op l r ihl ihr => rw [placed, OpTree.bare, ihl, ihr, tree]

theorem postOrder_placed (e : Formula) (first : Nat) :
    (e.placed first).postOrder = List.range' first e.size := by
  induction e generalizing first with
  | literal l => rfl
  | operation op l r ihl ihr =>
      rw [placed, OpTree.postOrder, ihl, ihr, size, ← List.range'_append_1,
        ← List.range'_append_1, ← Nat.add_assoc]
      rfl

/-- The root of a formula comes last. -/
theorem label_placed (e : Formula) (first : Nat) :
    (e.placed first).label = first + e.size - 1 := by
  cases e with
  | literal l => rfl
  | operation op l r =>
      simp only [placed, OpTree.label, size]
      omega

theorem nodes_placed (e : Formula) (first : Nat) : (e.placed first).nodes = e.listing first := by
  induction e generalizing first with
  | literal l => rfl
  | operation op l r ihl ihr =>
      rw [placed, OpTree.nodes, ihl, ihr, label_placed, label_placed, listing]

theorem length_operators_placed (e : Formula) (first : Nat) :
    (e.placed first).operators.length = e.operators := by
  induction e generalizing first with
  | literal l => rfl
  | operation op l r ihl ihr => simp [placed, OpTree.operators, operators, ihl, ihr, Nat.add_assoc]

theorem text_placed (e : Formula) (first : Nat) :
    (e.placed first).text = e.fullBy fun l => (Decimal.text l.value).toList := by
  induction e generalizing first with
  | literal l => rfl
  | operation op l r ihl ihr => rw [placed, OpTree.text, ihl, ihr, fullBy]

/-- Two ways to write literals that agree on those of a formula write the formula alike. -/
theorem fullBy_congr {e : Formula} {write write' : Literal → List Char}
    (h : ∀ l ∈ e.literals, write l = write' l) : e.fullBy write = e.fullBy write' := by
  induction e with
  | literal l => exact h l (List.mem_singleton_self l)
  | operation op l r ihl ihr =>
      rw [fullBy, ihl fun k hk => h k (List.mem_append_left _ hk),
        ihr fun k hk => h k (List.mem_append_right _ hk), fullBy]

/-- The minimal text of a formula is read as the formula. -/
theorem exists_parse (e : Formula) :
    ∃ a, parse (String.ofList e.minimal) = .ok a ∧ a.Shows (e.placed 0) := by
  obtain ⟨tokens, tree, hderives, hbare, hscan⟩ := e.spells.scanned [] [] (by simp)
  have htokens : tokenize (String.ofList e.minimal) = .ok tokens := by
    rw [List.append_nil, scanBehind_nil] at hscan
    rw [tokenize_eq_scanBehind, String.toList_ofList, hscan]
    simp [prepend, Except.map]
  have hsum : Level.sum.strength ≤ e.level.strength := by cases e.level <;> decide
  obtain ⟨a, placed, hparse, hshows, hplaced⟩ := (hderives.weaken hsum).exists_parse htokens
  obtain rfl : placed = e.placed 0 := by
    refine OpTree.eq_of_bare ?_ ?_
    · rw [hplaced, hbare, bare_placed]
    · have hlength := OpTree.length_postOrder_of_bare
        (hplaced.trans (hbare.trans (e.bare_placed 0).symm))
      rw [hshows.postOrder_eq, List.length_range, e.postOrder_placed, List.length_range'] at hlength
      rw [hshows.postOrder_eq, e.postOrder_placed, hlength, List.range_eq_range']
  exact ⟨a, hparse, hshows⟩

/-- The minimal text of a formula is read as the post-order listing of the formula, with the root at
the end, and the arena is written with all parentheses, where the double of each literal stands for
it.  Literals up to `2 ^ 53` without zeros in front are written as they are. -/
theorem parse_minimal (e : Formula) :
    ∃ a, parse (String.ofList e.minimal) = .ok a ∧
      a.entries.toList.map Entry.node = e.listing 0 ∧ a.root + 1 = a.size ∧
      a.operatorCount = e.operators ∧
      a.text = String.ofList (e.fullBy fun l => (Decimal.text l.value).toList) ∧
      ((∀ l ∈ e.literals, ∃ n ≤ 2 ^ 53, l = .ofNat n) → a.text = String.ofList e.full) := by
  obtain ⟨a, hparse, hshows⟩ := e.exists_parse
  have htext : a.text = String.ofList (e.fullBy fun l => (Decimal.text l.value).toList) := by
    rw [hshows.text_eq, text_placed]
  refine ⟨a, hparse, ?_, ?_, ?_, htext, fun hliterals => ?_⟩
  · rw [hshows.map_node_eq, nodes_placed]
  · have hpos := e.size_pos
    rw [← hshows.root_eq, label_placed, hshows.size_eq, postOrder_placed, List.length_range']
    omega
  · rw [hshows.operatorCount_eq, length_operators_placed]
  · rw [htext, full, fullBy_congr fun l hl => ?_]
    obtain ⟨n, hn, rfl⟩ := hliterals l hl
    exact Literal.text_value_ofNat hn

/-- The number behind `2 ^ 53` is written as `2 ^ 53`. -/
theorem parse_minimal_rounded :
    ∃ a, parse (String.ofList (literal (.ofNat 9007199254740993)).minimal) = .ok a ∧
      a.text ≠ String.ofList (literal (.ofNat 9007199254740993)).full := by
  refine ⟨_, rfl, ?_⟩
  decide

/-- `8-(3-2)*4` keeps its parentheses, and `(8-3)*2` needs them. -/
example : (operation .sub (literal (.ofNat 8)) (operation .mul
    (operation .sub (literal (.ofNat 3)) (literal (.ofNat 2))) (literal (.ofNat 4)))).minimal =
      "8-(3-2)*4".toList := by decide

end Formula

end TaskFarm.Expr
