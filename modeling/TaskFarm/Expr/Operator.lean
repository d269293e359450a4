/-!
# Operators

The four binary operators, their symbols, their binding strength and their arithmetic.
-/

namespace TaskFarm.Expr

inductive Operator where
  | add
  | sub
  | mul
  | div
  deriving DecidableEq, Repr, Inhabited

namespace Operator

/-- Every operator, in the order in which they are listed to a reader. -/
def all : List Operator :=
  [.add, .sub, .mul, .div]

def symbol : Operator → Char
  | .add => '+'
  | .sub => '-'
  | .mul => '*'
  | .div => '/'

def text (op : Operator) : String :=
  String.singleton op.symbol

/-- The operator that a character stands for. -/
def ofChar? (c : Char) : Option Operator :=
  all.find? fun op => op.symbol == c

/-- The operator that a text of one character stands for. -/
def ofText? (text : String) : Option Operator :=
  match text.toList with
  | [c] => ofChar? c
  | _ => none

/-- Binding strength; operators of equal strength associate to the left. -/
def precedence : Operator → Nat
  | .add | .sub => 1
  | .mul | .div => 2

/-- The arithmetic of doubles.  Division by zero is refused before it comes to this. -/
def apply : Operator → Float → Float → Float
  | .add, x, y => x + y
  | .sub, x, y => x - y
  | .mul, x, y => x * y
  | .div, x, y => x / y

/-- An operator is read back from its symbol. -/
@[simp] theorem ofChar?_symbol (op : Operator) : ofChar? op.symbol = some op := by
  cases op <;> decide

/-- Only its own symbol reads as an operator. -/
theorem symbol_of_ofChar? {c : Char} {op : Operator} (h : ofChar? c = some op) :
    op.symbol = c := by
  have := List.find?_some h
  simpa using this

end Operator

end TaskFarm.Expr
