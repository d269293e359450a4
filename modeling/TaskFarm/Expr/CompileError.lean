import TaskFarm.Expr.Operator
import TaskFarm.Expr.Span

/-!
# Errors of reading an expression

Each cause has a span, a message, a code and a line of help.  All of them are found before any
work is handed out.
-/

namespace TaskFarm.Expr

/-- Why a token list is no post-order listing of a tree. -/
inductive Malformation where
  | missingOperand (op : Operator)
  | parenthesis
  | empty
  | unjoined (operands : Nat)
  deriving DecidableEq, Repr

def Malformation.message : Malformation → String
  | .missingOperand op => "operator '" ++ op.text ++ "' is missing an operand"
  | .parenthesis => "parenthesis in postfix input"
  | .empty => "empty expression"
  | .unjoined operands => toString operands ++ " operands are not joined by an operator"

/-- Why a source text is no expression. -/
inductive CompileError where
  | invalidCharacter (c : Char) (span : Span)
  | mismatchedParentheses (span : Span)
  | malformedToken (text : String) (span : Span)
  | malformed (reason : Malformation) (span : Span)
  deriving DecidableEq, Repr

inductive Severity where
  | error
  | warning
  | info
  deriving DecidableEq, Repr

/-- A finding about a place in a source text, ready to be shown. -/
structure Diagnostic where
  severity : Severity
  message : String
  span : Span
  help : Option String
  code : Option String
  deriving DecidableEq, Repr

namespace CompileError

def span : CompileError → Span
  | .invalidCharacter _ span => span
  | .mismatchedParentheses span => span
  | .malformedToken _ span => span
  | .malformed _ span => span

def shift (bytes : Nat) : CompileError → CompileError
  | .invalidCharacter c span => .invalidCharacter c (span.shift bytes)
  | .mismatchedParentheses span => .mismatchedParentheses (span.shift bytes)
  | .malformedToken text span => .malformedToken text (span.shift bytes)
  | .malformed reason span => .malformed reason (span.shift bytes)

def message : CompileError → String
  | .invalidCharacter c _ => "invalid character: " ++ String.singleton c
  | .mismatchedParentheses _ => "mismatched parentheses"
  | .malformedToken text _ => "malformed token '" ++ text ++ "'"
  | .malformed reason _ => "invalid postfix expression: " ++ reason.message

/-- The code of the error's kind. -/
def code : CompileError → String
  | .invalidCharacter _ _ => "C001"
  | .mismatchedParentheses _ => "C002"
  | .malformedToken _ _ => "C003"
  | .malformed _ _ => "C004"

/-- What a reader may do about the error. -/
def help : CompileError → String
  | .invalidCharacter _ _ =>
    "Only digits, '.', '+', '-', '*', '/', parentheses and whitespace are allowed"
  | .mismatchedParentheses _ => "Check that every '(' has a matching ')'"
  | .malformedToken _ _ => "Check the number format"
  | .malformed _ _ => "Every operator needs a left and a right operand"

def diagnostic (e : CompileError) : Diagnostic :=
  { severity := .error
    message := e.message
    span := e.span
    help := some e.help
    code := some e.code }

end CompileError

end TaskFarm.Expr
