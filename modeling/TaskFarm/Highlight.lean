import TaskFarm.Expr.Scan

/-!
# Colouring a line

A line of input is cut into coloured parts.  Numerals, operators and parentheses have a colour
each and the rest is white.  In a line with an invalid character that character is red, and all
else is white.
-/

namespace TaskFarm

open TaskFarm.Expr

/-- The colours of a line's parts. -/
inductive Colour where
  | white
  | cyan
  | magenta
  | yellow
  | red
  deriving DecidableEq, Repr

def Colour.name : Colour → String
  | .white => "white"
  | .cyan => "cyan"
  | .magenta => "magenta"
  | .yellow => "yellow"
  | .red => "red"

def Colour.ofKind : TokenKind → Colour
  | .numeral _ => .cyan
  | .operator _ => .magenta
  | .openParen | .closeParen => .yellow

/-- A part of a line and its colour. -/
abbrev ColouredPart := Colour × List Char

namespace Highlight

/-- A part of the line, left out if it is empty; none if the span does not fit the line. -/
def part? (line : List Char) (colour : Colour) (s : Span) : Option (List ColouredPart) :=
  (s.slice? line).map fun text => if text.isEmpty then [] else [(colour, text)]

/-- The parts of the line from a byte offset on, where the tokens are. -/
def tokenParts? (line : List Char) (start : Nat) : List Token → Option (List ColouredPart)
  | [] => part? line .white ⟨start, byteLength line⟩
  | t :: rest => do
    let gap ← part? line .white ⟨start, t.span.start⟩
    let token ← part? line (.ofKind t.kind) t.span
    let others ← tokenParts? line t.span.stop rest
    pure (gap ++ token ++ others)

/-- The parts of a line with one red part, which is cut off at the end of the line. -/
def errorParts? (line : List Char) (s : Span) : Option (List ColouredPart) := do
  let size := byteLength line
  let start := min s.start size
  let stop := min s.stop size
  let before ← part? line .white ⟨0, start⟩
  let bad ← part? line .red ⟨start, stop⟩
  let after ← part? line .white ⟨stop, size⟩
  pure (before ++ bad ++ after)

/-- The coloured parts of a line. -/
def parts? (line : String) : Option (List ColouredPart) :=
  match tokenize line with
  | .ok tokens => tokenParts? line.toList 0 tokens
  | .error e => errorParts? line.toList e.span

end Highlight

end TaskFarm
