/-!
# Waiting before another attempt

A worker that finds no task waits before it asks again.  How long it waits may depend on how many
attempts in a row came to nothing.
-/

namespace TaskFarm

/-- The time to wait, in milliseconds, after the given number of attempts that came to nothing. -/
abbrev RetryPolicy := Nat → Nat

/-- The same waiting time after every attempt. -/
structure FixedBackoff where
  /-- The time in nanoseconds. -/
  interval : Nat
  deriving DecidableEq, Repr

namespace FixedBackoff

def millisecond : Nat := 1000000

/-- The shortest time that a worker waits, so that an idle one never asks without pause. -/
def minInterval : Nat := millisecond

def standard : FixedBackoff :=
  ⟨3000 * millisecond⟩

/-- The backoff of a number of milliseconds. -/
def ofMillis (ms : Nat) : FixedBackoff :=
  ⟨ms * millisecond⟩

/-- The time to wait, in nanoseconds, whichever attempt it is. -/
def delay (b : FixedBackoff) (_attempt : Nat) : Nat :=
  max b.interval minInterval

/-- The waiting time on a clock of whole milliseconds, which never rings early. -/
def policy (b : FixedBackoff) : RetryPolicy := fun attempt =>
  (b.delay attempt + (millisecond - 1)) / millisecond

end FixedBackoff

/-- A policy whose waiting time grows with each attempt. -/
def linearBackoff (step : Nat) : RetryPolicy := fun attempt => step * attempt

end TaskFarm
