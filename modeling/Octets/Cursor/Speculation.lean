import Octets.Cursor

/-!
# Speculation

A speculation runs a reading attempt that may fail. Run on the cursor itself, a
failed attempt gives back the token start and the position; run on a copy, a
successful one hands over nothing but its position. In both cases an attempt
that fails with a milestone armed falls back to the milestone instead of the
position before it, so that part of what it read stays read. A milestone serves
one such fall.

An attempt may move the window, and so may leave a cursor whose bounds do not
ascend. A run that goes on from there may be broken off (see
`Octets.Proofs.Cursor.Order`).

## Main definitions

* `Cursor.attempt` — a speculation on the cursor itself
* `Cursor.lookahead` — a speculation on a copy
* `Cursor.keepProgress` — arms the milestone when an attempt fails
-/

namespace Octets.Cursor

/-- Where the armed milestone leads, drawn into the window, which must not end in
front of the token start. -/
def milestone? (c : Cursor) : Option Nat := c.milestone.map fun pos => max c.start (min pos c.stop)

/-- The cursor after an attempt on it has failed, given the cursor before. The
window stays as the attempt left it. -/
def fallBack (before after : Cursor) : Cursor :=
  let c := { after with start := before.start }
  { c with pos := max (c.milestone?.getD before.pos) before.start, milestone := none }

/-- Runs an attempt on the cursor; if it fails, the cursor falls back. -/
def attempt (f : Cursor → Bool × Cursor) (c : Cursor) : Bool × Cursor :=
  match f c with
  | (true, after) => (true, after)
  | (false, after) => (false, fallBack c after)

/-- The copy of a cursor on which a lookahead runs. -/
def fork (c : Cursor) : Cursor := { c with milestone := none }

/-- What a lookahead leaves: the distance it moved, if it succeeded without going
back, and the cursor at its position; otherwise the cursor at the milestone that
it armed, if it armed one. -/
def join (before : Cursor) (succeeded : Bool) (after : Cursor) : Option Nat × Cursor :=
  if succeeded && before.pos ≤ after.pos then
    (some (after.pos - before.pos), { before with pos := after.pos })
  else
    match after.milestone? with
    | some pos => (none, { before with pos := max pos before.start })
    | none => (none, before)

/-- Runs an attempt on a copy of the cursor. -/
def lookahead (f : Cursor → Bool × Cursor) (c : Cursor) : Option Nat × Cursor :=
  let (succeeded, after) := f c.fork
  join c succeeded after

/-- Arms the milestone one byte behind the position that a failed attempt left. -/
def keep (succeeded : Bool) (after : Cursor) : Cursor :=
  if succeeded then after else after.arm (after.pos + 1)

/-- Runs an attempt; if it fails, a speculation around it keeps its progress and
one byte more. -/
def keepProgress (f : Cursor → Bool × Cursor) (c : Cursor) : Bool × Cursor :=
  let (succeeded, after) := f c
  (succeeded, keep succeeded after)

end Octets.Cursor
