/-!
# Bounded channels

A channel holds a bounded number of values in the order in which they came.  A sender that finds
it full waits its turn; when a value is taken, the free place is granted to the sender that waits
longest, and stays reserved until that sender puts its value in.  A closed channel refuses every
sender, those with a granted place included, while the values inside can still be taken.
-/

namespace TaskFarm

/-- A channel for values of type `α` whose senders are named by `σ`. -/
structure Channel (σ α : Type) where
  capacity : Nat
  /-- The values inside, the oldest first. -/
  buffer : List α
  /-- Senders with a place reserved for their value. -/
  granted : List (σ × α)
  /-- Senders without a place, the one that waits longest first. -/
  waiting : List (σ × α)
  closed : Bool

inductive Sending where
  | accepted
  | waiting
  | refused
  deriving DecidableEq, Repr

namespace Channel

variable {σ α : Type}

/-- An open channel without values. -/
def empty (capacity : Nat) : Channel σ α :=
  { capacity, buffer := [], granted := [], waiting := [], closed := false }

/-- The number of places that are taken or reserved. -/
def occupied (ch : Channel σ α) : Nat :=
  ch.buffer.length + ch.granted.length

/-- A sender that comes now is let in. -/
def hasRoom (ch : Channel σ α) : Bool :=
  ch.waiting.isEmpty && ch.occupied < ch.capacity

/-- A sender comes with a value. -/
def offer (ch : Channel σ α) (sender : σ) (value : α) : Sending × Channel σ α :=
  if ch.closed then
    (.refused, ch)
  else if ch.hasRoom then
    (.accepted, { ch with buffer := ch.buffer ++ [value] })
  else
    (.waiting, { ch with waiting := ch.waiting ++ [(sender, value)] })

/-- A free place goes to the sender that waits longest. -/
def grant (ch : Channel σ α) : Channel σ α :=
  match ch.waiting with
  | [] => ch
  | next :: others =>
    if !ch.closed && ch.occupied < ch.capacity then
      { ch with granted := ch.granted ++ [next], waiting := others }
    else
      ch

/-- The oldest value is taken out. -/
def take? (ch : Channel σ α) : Option (α × Channel σ α) :=
  match ch.buffer with
  | [] => none
  | value :: others => some (value, grant { ch with buffer := others })

variable [BEq σ]

/-- The pairs of other senders. -/
def others (sender : σ) (pairs : List (σ × α)) : List (σ × α) :=
  pairs.filter fun pair => !(pair.1 == sender)

def isGranted (ch : Channel σ α) (sender : σ) : Bool :=
  ch.granted.any fun pair => pair.1 == sender

def isPending (ch : Channel σ α) (sender : σ) : Bool :=
  ch.isGranted sender || ch.waiting.any fun pair => pair.1 == sender

/-- A sender leaves with its value; a place reserved for it goes to the next one. -/
def withdraw (ch : Channel σ α) (sender : σ) : Channel σ α :=
  grant { ch with granted := others sender ch.granted, waiting := others sender ch.waiting }

/-- A pending sender goes on: it puts its value into the place reserved for it, or learns that the
channel is closed.  It has nothing to do while it must wait. -/
def resume? (ch : Channel σ α) (sender : σ) : Option (Sending × Channel σ α) :=
  if ch.closed then
    if ch.isPending sender then some (.refused, ch.withdraw sender) else none
  else
    match ch.granted.find? fun pair => pair.1 == sender with
    | some (_, value) =>
      some (.accepted,
        { ch with buffer := ch.buffer ++ [value], granted := others sender ch.granted })
    | none => none

/-- A sender tries to put its value in: it comes if it is new, and goes on if it is pending. -/
def attempt? (ch : Channel σ α) (sender : σ) (value : α) : Option (Sending × Channel σ α) :=
  if ch.isPending sender then ch.resume? sender else some (ch.offer sender value)

omit [BEq σ] in
def close (ch : Channel σ α) : Channel σ α :=
  { ch with closed := true }

omit [BEq σ] in
/-- The receiver goes away: the values inside are lost and no sender is let in. -/
def discard (ch : Channel σ α) : Channel σ α :=
  { ch with buffer := [], closed := true }

end Channel

/-! ## Going on until nothing can go on

Whoever deals with a channel takes small steps that are possible only at times. -/

/-- Repeat a step until it is not possible any more, at most `fuel` times. -/
def settleBy {α : Type} (step? : α → Option α) : Nat → α → α
  | 0, a => a
  | fuel + 1, a =>
    match step? a with
    | some next => settleBy step? fuel next
    | none => a

end TaskFarm
