import TaskFarm.Decimal.Shortest

/-!
# Positional notation

Values are written with the fewest digits that read back, always positionally: there is no
exponent, no closing `.0`, and a zero keeps its sign.
-/

namespace TaskFarm.Decimal

/-- Drop zeros at the end of the fraction: the number `coefficient / 10 ^ places` written with
as few places as it needs. -/
def stripZeros : Nat → Nat → Nat × Nat
  | 0, coefficient => (0, coefficient)
  | places + 1, coefficient =>
    if coefficient % 10 = 0 then
      stripZeros places (coefficient / 10)
    else
      (places + 1, coefficient)

/-- The digits of `n`, with zeros in front up to the given width. -/
def paddedDigits (width n : Nat) : List Char :=
  let digits := Nat.toDigits 10 n
  List.replicate (width - digits.length) '0' ++ digits

/-- The text of `coefficient / 10 ^ places`. -/
def fixedText (places coefficient : Nat) : List Char :=
  let whole := Nat.toDigits 10 (coefficient / Nat.pow 10 places)
  if places = 0 then
    whole
  else
    whole ++ '.' :: paddedDigits places (coefficient % Nat.pow 10 places)

def Scientific.positional (d : Scientific) : List Char :=
  let whole := d.coefficient * Nat.pow 10 d.exponent.toNat
  let (places, coefficient) := stripZeros (-d.exponent).toNat whole
  fixedText places coefficient

/-- The text of a reading with the given sign; no number has no sign. -/
def Reading.text (negative : Bool) (r : Reading) : List Char :=
  let sign := if negative then ['-'] else []
  match r with
  | .notANumber => ['N', 'a', 'N']
  | .infinite => sign ++ ['i', 'n', 'f']
  | .finite x => sign ++ x.shortest.positional

def text (x : Float) : String :=
  String.ofList ((Reading.ofBits x.toBits).text (signBit x.toBits))

end TaskFarm.Decimal
