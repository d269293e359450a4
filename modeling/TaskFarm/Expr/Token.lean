import TaskFarm.Expr.Operator
import TaskFarm.Expr.Span

/-!
# Tokens

The words of an expression.  A numeral keeps its text: whether it reads as a number is decided
later, when its place in the expression is known.
-/

namespace TaskFarm.Expr

inductive TokenKind where
  /-- Digits and points, with a leading minus if it belongs to the number. -/
  | numeral (text : String)
  | operator (op : Operator)
  | openParen
  | closeParen
  deriving DecidableEq, Repr

structure Token where
  kind : TokenKind
  span : Span
  deriving DecidableEq, Repr

namespace Token

def text (t : Token) : String :=
  match t.kind with
  | .numeral text => text
  | .operator op => op.text
  | .openParen => "("
  | .closeParen => ")"

def isOpen (t : Token) : Bool :=
  t.kind == .openParen

def shift (bytes : Nat) (t : Token) : Token :=
  { t with span := t.span.shift bytes }

end Token

end TaskFarm.Expr
