import TaskFarm.Decimal.Shortest

/-!
# Numerals

A numeral is an optional sign followed by `inf`, `infinity` or `nan` in any letter case, or by
digits with at most one point and at least one digit and an optional exponent.  It stands for
the nearest double; ties go to the even significand.
-/

namespace TaskFarm.Decimal

/-- What the text of a numeral says. -/
inductive Numeral where
  | notANumber
  | infinite (negative : Bool)
  | finite (negative : Bool) (magnitude : Scientific)
  deriving DecidableEq, Repr

def isDigit (c : Char) : Bool :=
  '0' ≤ c && c ≤ '9'

/-- The number that a list of digits spells. -/
def digitsValue (digits : List Char) : Nat :=
  digits.foldl (fun value c => 10 * value + (c.toNat - '0'.toNat)) 0

/-- Split an optional sign off; the flag says that it is a minus. -/
def splitSign : List Char → Bool × List Char
  | '-' :: rest => (true, rest)
  | '+' :: rest => (false, rest)
  | rest => (false, rest)

/-- The exponent behind the digits: nothing, or `e` with an optional sign and digits. -/
def readExponent : List Char → Option Int
  | [] => some 0
  | mark :: rest =>
    if mark = 'e' ∨ mark = 'E' then
      let (negative, digits) := splitSign rest
      if !digits.isEmpty && digits.all isDigit then
        some (if negative then -(digitsValue digits : Int) else digitsValue digits)
      else
        none
    else
      none

/-- The magnitude of an unsigned numeral that is written with digits. -/
def readMagnitude (cs : List Char) : Option Scientific :=
  let whole := cs.takeWhile isDigit
  let (fraction, rest) :=
    match cs.dropWhile isDigit with
    | '.' :: rest => (rest.takeWhile isDigit, rest.dropWhile isDigit)
    | rest => ([], rest)
  if whole.isEmpty && fraction.isEmpty then
    none
  else
    (readExponent rest).map fun exponent =>
      ⟨digitsValue (whole ++ fraction), exponent - (fraction.length : Int)⟩

/-- The reading of a whole text as a numeral. -/
def Numeral.read? (cs : List Char) : Option Numeral :=
  let (negative, body) := splitSign cs
  let word := String.ofList (body.map Char.toLower)
  if word = "nan" then
    some .notANumber
  else if word = "inf" ∨ word = "infinity" then
    some (.infinite negative)
  else
    (readMagnitude body).map (.finite negative)

/-- The double nearest to a decimal.  Decimals from `10 ^ 310` up are infinite and those below
`10 ^ (-330)` are zero whatever their digits. -/
def Scientific.nearest (d : Scientific) : Float :=
  let order : Int := digitCount d.coefficient + d.exponent
  if d.coefficient = 0 ∨ order < -330 then
    0.0
  else if 310 < order then
    1.0 / 0.0
  else
    Float.ofScientific d.coefficient (decide (d.exponent < 0)) d.exponent.natAbs

/-- The double that a numeral stands for. -/
def Numeral.value : Numeral → Float
  | .notANumber => 0.0 / 0.0
  | .infinite negative => if negative then -(1.0 / 0.0) else 1.0 / 0.0
  | .finite negative d => if negative then -d.nearest else d.nearest

/-- The double that a text stands for, if the text is a numeral. -/
def parse? (text : String) : Option Float :=
  (Numeral.read? text.toList).map Numeral.value

end TaskFarm.Decimal
