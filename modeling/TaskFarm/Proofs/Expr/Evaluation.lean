import TaskFarm.Proofs.Expr.Tree
import Mathlib.Logic.Function.Basic

/-!
# The value of a tree

The value of a tree is found by plain recursion: operands first, the left one before the right one.
The same recursion can put the values of the operators into a table and read the operands from
there.  Both agree, since no operator stands at two places of the tree.
-/

namespace TaskFarm.Expr

/-- Why a tree has no value. -/
inductive Fault where
  | divisionByZero
  /-- An operator has too many operators above it. -/
  | depthExceeded (depth maxDepth : Nat)
  deriving DecidableEq, Repr

/-- The value of an operator, unless it divides by either zero. -/
def Operator.evaluate (op : Operator) (x y : Float) : Except Fault Float :=
  if op == .div && y == 0.0 then .error .divisionByZero else .ok (op.apply x y)

/-- Only a division by zero has no value. -/
theorem Operator.eq_of_evaluate_error {op : Operator} {x y : Float} {fault : Fault}
    (h : op.evaluate x y = .error fault) : fault = .divisionByZero := by
  unfold evaluate at h
  split at h
  · cases h
    rfl
  · cases h

namespace OpTree

/-- The value of a tree that has `depth` operators above it. -/
def evaluate {α : Type} (maxDepth : Nat) : OpTree α → Nat → Except Fault Float
  | leaf _ value, _ => .ok value
  | branch _ op l r, depth =>
    if maxDepth ≤ depth then
      .error (.depthExceeded depth maxDepth)
    else do
      let x ← l.evaluate maxDepth (depth + 1)
      let y ← r.evaluate maxDepth (depth + 1)
      op.evaluate x y

/-- The value of a tree according to a table of its operators' values. -/
def read (table : Nat → Float) : OpTree Nat → Float
  | leaf _ value => value
  | branch i _ _ _ => table i

/-- Enter the value of an operator into a table. -/
def enter (i : Nat) (op : Operator) (l r : OpTree Nat) (table : Nat → Float) :
    Except Fault (Nat → Float) := do
  let value ← op.evaluate (l.read table) (r.read table)
  return Function.update table i value

/-- Enter the values of all operators of a tree into a table. -/
def fill (maxDepth : Nat) : OpTree Nat → Nat → (Nat → Float) → Except Fault (Nat → Float)
  | leaf _ _, _, table => .ok table
  | branch i op l r, depth, table =>
    if maxDepth ≤ depth then
      .error (.depthExceeded depth maxDepth)
    else do
      let table ← l.fill maxDepth (depth + 1) table
      let table ← r.fill maxDepth (depth + 1) table
      enter i op l r table

/-- A change of the table outside a tree does not matter to it. -/
theorem read_congr {t : OpTree Nat} {table table' : Nat → Float}
    (h : ∀ i ∈ t.operators, table' i = table i) : t.read table' = t.read table := by
  cases t with
  | leaf i v => rfl
  | branch i op l r => exact h i (by simp [operators])

/-- A filled table holds the value of a tree, and is the same as before outside the tree. -/
structure FillsTo (t : OpTree Nat) (table : Nat → Float) (value : Float)
    (filled : Nat → Float) : Prop where
  read_eq : t.read filled = value
  outside : ∀ i, i ∉ t.operators → filled i = table i

theorem fill_eq {maxDepth : Nat} {t : OpTree Nat} (hnodup : t.operators.Nodup) (depth : Nat)
    (table : Nat → Float) :
    (∃ fault, t.evaluate maxDepth depth = .error fault ∧
      t.fill maxDepth depth table = .error fault) ∨
    ∃ value filled, t.evaluate maxDepth depth = .ok value ∧
      t.fill maxDepth depth table = .ok filled ∧ t.FillsTo table value filled := by
  induction t generalizing depth table with
  | leaf i v => exact .inr ⟨v, table, rfl, rfl, rfl, fun _ _ => rfl⟩
  | branch i op l r ihl ihr =>
      obtain ⟨hparts, -, hroot⟩ := List.nodup_append.mp hnodup
      obtain ⟨hl, hr, happart⟩ := List.nodup_append.mp hparts
      by_cases hdepth : maxDepth ≤ depth
      · simp [evaluate, fill, hdepth]
      simp only [evaluate, fill, if_neg hdepth]
      rcases ihl hl (depth + 1) table with ⟨fault, heval, hfill⟩ | ⟨x, tableL, hevalL, hfillL, hx⟩
      · rw [heval, hfill]
        exact .inl ⟨fault, rfl, rfl⟩
      rw [hevalL, hfillL]
      simp only [bind, Except.bind]
      rcases ihr hr (depth + 1) tableL with ⟨fault, heval, hfill⟩ | ⟨y, tableR, hevalR, hfillR, hy⟩
      · rw [heval, hfill]
        exact .inl ⟨fault, rfl, rfl⟩
      rw [hevalR, hfillR]
      -- the operators of the right operand are not those of the left one
      have hkept : l.read tableR = x := by
        rw [← hx.read_eq]
        exact read_congr fun j hj => hy.outside j fun hj' => happart j hj j hj' rfl
      simp only [enter, hkept, hy.read_eq]
      cases hvalue : op.evaluate x y with
      | error fault => exact .inl ⟨fault, rfl, rfl⟩
      | ok value =>
          refine .inr ⟨value, _, rfl, rfl, ?_, ?_⟩
          · simp [read]
          · intro j hj
            simp only [operators, List.mem_append, List.mem_singleton, not_or] at hj
            rw [Function.update_of_ne hj.2, hy.outside j hj.1.2, hx.outside j hj.1.1]

/-- Filling any table and reading the tree's value there is evaluating the tree. -/
theorem map_read_fill {maxDepth : Nat} {t : OpTree Nat} (hnodup : t.operators.Nodup) (depth : Nat)
    (table : Nat → Float) :
    (t.fill maxDepth depth table).map t.read = t.evaluate maxDepth depth := by
  rcases fill_eq hnodup depth table with
    ⟨fault, heval, hfill⟩ | ⟨value, filled, heval, hfill, hvalue⟩
  · rw [heval, hfill]
    rfl
  · rw [heval, hfill]
    exact congrArg Except.ok hvalue.read_eq

end OpTree

end TaskFarm.Expr
