/-!
# The parts of a double

A double is read off its 64 bits: a sign, and either no number, an infinity, or a natural
significand times a power of two.  Everything printed about a double is computed from these
parts in exact arithmetic.
-/

namespace TaskFarm.Decimal

/-- A non-negative finite double `significand * 2 ^ scale`. -/
structure Magnitude where
  significand : Nat
  scale : Int
  /-- The gap to the double below is half the gap to the double above. -/
  narrowBelow : Bool
  deriving DecidableEq, Repr

/-- What the bits of a double stand for, its sign apart. -/
inductive Reading where
  | notANumber
  | infinite
  | finite (magnitude : Magnitude)
  deriving DecidableEq, Repr

/-- The magnitude with the given exponent field and fraction field. -/
def Magnitude.ofFields (exponent fraction : Nat) : Magnitude :=
  if exponent = 0 then
    ⟨fraction, -1074, false⟩
  else
    ⟨Nat.pow 2 52 + fraction, (exponent : Int) - 1075, fraction == 0 && 1 < exponent⟩

/-- The sign bit, set for negative doubles and for the negative zero. -/
def signBit (bits : UInt64) : Bool :=
  Nat.pow 2 63 ≤ bits.toNat

/-- The reading of 64 bits as a double, its sign apart. -/
def Reading.ofBits (bits : UInt64) : Reading :=
  let exponent := bits.toNat / Nat.pow 2 52 % Nat.pow 2 11
  let fraction := bits.toNat % Nat.pow 2 52
  if exponent = 2047 then
    if fraction = 0 then .infinite else .notANumber
  else
    .finite (Magnitude.ofFields exponent fraction)

end TaskFarm.Decimal
