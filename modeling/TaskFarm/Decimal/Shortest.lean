import TaskFarm.Decimal.Binary64

/-!
# The fewest digits that read back

The reals that round to a double form an interval, whose ends belong to it exactly when the
significand is even.  `Magnitude.shortest` walks the decimal grids from coarse to fine and
stops at the first one with a point in the interval: no decimal with fewer digits reads back
to the same double.  Powers are written with `Nat.pow`, whose meaning depends on no instance.
-/

namespace TaskFarm.Decimal

/-- The decimal `coefficient * 10 ^ exponent`. -/
structure Scientific where
  coefficient : Nat
  exponent : Int
  deriving DecidableEq, Repr

/-- The number of decimal digits of a natural number; zero has one. -/
def digitCount (n : Nat) : Nat :=
  (Nat.toDigits 10 n).length

/-- The reals that round to a positive double, over a common denominator. -/
structure Basin where
  low : Nat
  value : Nat
  high : Nat
  denominator : Nat
  /-- The ends round to the double as well. -/
  closed : Bool

/-- The interval of reals that round to `x`, from halfway below to halfway above. -/
def Magnitude.basin (x : Magnitude) : Basin :=
  let up := Nat.pow 2 x.scale.toNat
  { low := (4 * x.significand - if x.narrowBelow then 1 else 2) * up
    value := 4 * x.significand * up
    high := (4 * x.significand + 2) * up
    denominator := 4 * Nat.pow 2 (-x.scale).toNat
    closed := x.significand % 2 == 0 }

/-- The point `coefficient * 10 ^ exponent` lies in the interval. -/
def Basin.contains (b : Basin) (point : Scientific) : Bool :=
  let scaled := point.coefficient * Nat.pow 10 point.exponent.toNat * b.denominator
  let down := Nat.pow 10 (-point.exponent).toNat
  if b.closed then
    decide (b.low * down ≤ scaled) && decide (scaled ≤ b.high * down)
  else
    decide (b.low * down < scaled) && decide (scaled < b.high * down)

/-- The least exponent `k` with `value < 10 ^ k`. -/
def Basin.order (b : Basin) : Int :=
  if b.denominator ≤ b.value then
    digitCount (b.value / b.denominator)
  else
    let length := digitCount (b.denominator / b.value)
    if b.value * Nat.pow 10 (length - 1) = b.denominator then
      2 - (length : Int)
    else
      1 - (length : Int)

/-- The neighbour of the value on the grid of multiples of `10 ^ exponent` that reads back.
Of two such neighbours the nearer one is taken, and the upper one if both are equally near. -/
def Basin.onGrid (b : Basin) (exponent : Int) : Option Scientific :=
  let numerator := b.value * Nat.pow 10 (-exponent).toNat
  let step := b.denominator * Nat.pow 10 exponent.toNat
  let lower : Scientific := ⟨numerator / step, exponent⟩
  let upper : Scientific := ⟨numerator / step + 1, exponent⟩
  match b.contains lower, b.contains upper with
  | true, true => if 2 * (numerator % step) < step then some lower else some upper
  | true, false => some lower
  | false, true => some upper
  | false, false => none

/-- The exact decimal expansion of a magnitude. -/
def Magnitude.exact (x : Magnitude) : Scientific :=
  if 0 ≤ x.scale then
    ⟨x.significand * Nat.pow 2 x.scale.toNat, 0⟩
  else
    ⟨x.significand * Nat.pow 5 (-x.scale).toNat, x.scale⟩

/-- The decimal with the fewest digits that reads back to `x`.  Seventeen digits always
suffice; the exact expansion stands behind them. -/
def Magnitude.shortest (x : Magnitude) : Scientific :=
  if x.significand = 0 then
    ⟨0, 0⟩
  else
    let b := x.basin
    let grids := (List.range 17).map fun n => b.order - (n + 1 : Nat)
    (grids.findSome? b.onGrid).getD x.exact

end TaskFarm.Decimal
