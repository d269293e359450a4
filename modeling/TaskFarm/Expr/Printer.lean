import TaskFarm.Decimal.Positional
import TaskFarm.Expr.Arena

/-!
# Writing a tree with all its parentheses

A tree is written with every operator in parentheses, such as `(2 + (3 * 4))`.  The writer keeps
the pieces still to be written on a stack of its own.
-/

namespace TaskFarm.Expr

/-- Something still to be written. -/
inductive Unwritten where
  | node (i : Nat)
  | operator (op : Operator)
  | close
  deriving DecidableEq, Repr

namespace Arena

/-- Write the topmost piece: its text, and the pieces that take its place. -/
def writePiece (a : Arena) : Unwritten → List Char × List Unwritten
  | .node i =>
    match a.node? i with
    | some (.number value) => ((Decimal.text value).toList, [])
    | some (.binary op left right) => (['('], [.node left, .operator op, .node right, .close])
    | none => ([], [])
  | .operator op => ([' ', op.symbol, ' '], [])
  | .close => ([')'], [])

/-- Write a stack of pieces, at most `fuel` of them. -/
def write (a : Arena) : Nat → List Unwritten → List Char
  | 0, _ => []
  | _, [] => []
  | fuel + 1, piece :: stack =>
    let (chars, pieces) := a.writePiece piece
    chars ++ write a fuel (pieces ++ stack)

/-- The text of a tree.  A node is one piece and each operator adds two more, so three pieces
for each node are enough. -/
def text (a : Arena) : String :=
  String.ofList (a.write (3 * a.size) [.node a.root])

end Arena

end TaskFarm.Expr
