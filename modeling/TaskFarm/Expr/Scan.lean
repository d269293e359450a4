import TaskFarm.Text.Blank
import TaskFarm.Decimal.Numeral
import TaskFarm.Expr.CompileError
import TaskFarm.Expr.Token

/-!
# From characters to tokens

The scanner goes once over the text.  It carries the byte offset, the character before, and the
numeral that is being collected.  A minus opens a numeral exactly when it is the first
character of all or stands directly behind an operator character; white space counts as a
character, so `1 - 2` subtracts and `1*-2` multiplies by a negative number.
-/

namespace TaskFarm.Expr

/-- A numeral in the making. -/
structure Collected where
  start : Nat
  text : List Char
  deriving DecidableEq, Repr

/-- What a character does, given the character before it. -/
inductive CharRole where
  | blank
  | digit
  | sign
  | operator (op : Operator)
  | paren (kind : TokenKind)
  | invalid
  deriving DecidableEq, Repr

/-- A minus at this place belongs to the number behind it. -/
def signFollows : Option Char → Bool
  | none => true
  | some c => (Operator.ofChar? c).isSome

/-- The role of a character behind `previous`. -/
def CharRole.of (previous : Option Char) (c : Char) : CharRole :=
  if Text.isBlank c then
    .blank
  else if Decimal.isDigit c || c == '.' then
    .digit
  else if c == '-' && signFollows previous then
    .sign
  else
    match Operator.ofChar? c with
    | some op => .operator op
    | none =>
      if c = '(' then
        .paren .openParen
      else if c = ')' then
        .paren .closeParen
      else
        .invalid

/-- The numeral collected so far, ended at the given offset. -/
def Collected.tokens (stop : Nat) : Option Collected → List Token
  | none => []
  | some n => [⟨.numeral (String.ofList n.text), ⟨n.start, stop⟩⟩]

/-- The numeral collected so far with one more character, which stands at the given offset. -/
def Collected.extend (offset : Nat) (c : Char) : Option Collected → Collected
  | none => ⟨offset, [c]⟩
  | some n => { n with text := n.text ++ [c] }

/-- The tokens of the text that begins at `offset`, behind `previous`, while `collected` waits
for its end. -/
def scanFrom (offset : Nat) (previous : Option Char) (collected : Option Collected) :
    List Char → Except CompileError (List Token)
  | [] => .ok (Collected.tokens offset collected)
  | c :: rest =>
    let next := offset + c.utf8Size
    match CharRole.of previous c with
    | .blank =>
      (scanFrom next (some c) none rest).map fun tokens =>
        Collected.tokens offset collected ++ tokens
    | .digit => scanFrom next (some c) (some (Collected.extend offset c collected)) rest
    | .sign =>
      (scanFrom next (some c) (some ⟨offset, [c]⟩) rest).map fun tokens =>
        Collected.tokens offset collected ++ tokens
    | .operator op =>
      (scanFrom next (some c) none rest).map fun tokens =>
        Collected.tokens offset collected ++ ⟨.operator op, ⟨offset, next⟩⟩ :: tokens
    | .paren kind =>
      (scanFrom next (some c) none rest).map fun tokens =>
        Collected.tokens offset collected ++ ⟨kind, ⟨offset, next⟩⟩ :: tokens
    | .invalid => .error (.invalidCharacter c ⟨offset, next⟩)

theorem scanFrom_nil (offset : Nat) (previous : Option Char) (collected : Option Collected) :
    scanFrom offset previous collected [] = .ok (Collected.tokens offset collected) := by
  rw [scanFrom]

/-- The tokens of a source text, or its first invalid character. -/
def tokenize (source : String) : Except CompileError (List Token) :=
  scanFrom 0 none none source.toList

end TaskFarm.Expr
