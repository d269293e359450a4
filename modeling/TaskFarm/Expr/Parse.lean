import TaskFarm.Expr.Arena
import TaskFarm.Expr.Scan

/-!
# Reading an expression

Text becomes tokens, tokens are put into post-order, and the post-order becomes a tree.

For the post-order, operators wait on a stack until an operator that binds no tighter, a closing
parenthesis or the end of the text sends them out; numerals go out at once.  Parentheses never go
out.
-/

namespace TaskFarm.Expr

/-- The waiting token is an operator that goes before `op`: it binds at least as tightly. -/
def goesBefore (op : Operator) (waiting : Token) : Bool :=
  match waiting.kind with
  | .operator other => op.precedence ≤ other.precedence
  | _ => false

/-- The operators above the nearest opening parenthesis, and what lies below it. -/
def closeGroup? (stack : List Token) : Option (List Token × List Token) :=
  match stack.dropWhile fun t => !t.isOpen with
  | [] => none
  | _ :: below => some (stack.takeWhile fun t => !t.isOpen, below)

/-- The operators left at the end of the text; a parenthesis among them was never closed. -/
def drain : List Token → Except CompileError (List Token)
  | [] => .ok []
  | t :: stack =>
    match t.kind with
    | .openParen | .closeParen => .error (.mismatchedParentheses t.span)
    | _ => (drain stack).map fun tokens => t :: tokens

/-- The post-order of the remaining tokens, with operators waiting on a stack. -/
def postOrderFrom (stack : List Token) : List Token → Except CompileError (List Token)
  | [] => drain stack
  | t :: rest =>
    match t.kind with
    | .numeral text =>
      if (Decimal.parse? text).isSome then
        (postOrderFrom stack rest).map fun tokens => t :: tokens
      else
        .error (.malformedToken text t.span)
    | .openParen => postOrderFrom (t :: stack) rest
    | .closeParen =>
      match closeGroup? stack with
      | some (group, below) =>
        (postOrderFrom below rest).map fun tokens => group ++ tokens
      | none => .error (.mismatchedParentheses t.span)
    | .operator op =>
      (postOrderFrom (t :: stack.dropWhile (goesBefore op)) rest).map fun tokens =>
        stack.takeWhile (goesBefore op) ++ tokens

/-- The post-order of an infix token list. -/
def postOrder (tokens : List Token) : Except CompileError (List Token) :=
  postOrderFrom [] tokens

/-- The tree of a source text, or the first thing wrong with it. -/
def parse (source : String) : Except CompileError Arena :=
  ((tokenize source).bind postOrder).bind Arena.ofPostOrder

end TaskFarm.Expr
