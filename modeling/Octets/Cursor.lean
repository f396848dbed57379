import Octets.LeadTable

/-!
# Cursors

A cursor reads forward through a byte string. It sees a window of it, stands at
a position inside the window, and remembers where the current token began, so
that the token is always the bytes from its start up to the position. What a
scan takes moves the position and nothing else; a scan that does not apply
leaves the cursor as it was.

A milestone may be armed on a cursor. It names a position to which a speculation
that fails falls back (see `Octets.Cursor.Speculation`).

## Main definitions

* `Cursor`, `Cursor.ofBytes`, `Cursor.within` — a cursor over a whole byte
  string, or over a window of it
* `Cursor.WellFormed` — token start, position, window end and length ascend
* `Cursor.rest`, `Cursor.token` — the unread bytes of the window, the token
* `Cursor.take`, `Cursor.read?` — what a scan takes from the unread bytes
* `Cursor.collect`, `Cursor.seek`, `Cursor.moveWindow`, `Cursor.jumpTo`

## Main results

* `Cursor.take_eq_of_none`, `Cursor.take_eq_of_some` — taking a scan is all or
  nothing
* `Cursor.WellFormed` is kept by every operation of this file that stays within
  the unread bytes
-/

namespace Octets

/-- A place in a byte string: the window ends at `stop`, the next byte read is
the one at `pos`, and the current token began at `start`. -/
structure Cursor where
  bytes : Bytes
  start : Nat
  pos : Nat
  stop : Nat
  milestone : Option Nat
  deriving DecidableEq, Repr

/-- Where a search for a byte led. -/
inductive Jump where
  /-- The byte stands in the window, and the cursor stands on it now. -/
  | moved (target : Nat)
  /-- The byte stands only behind the window; nothing moved. -/
  | outside (target : Nat)
  /-- The byte does not occur any more. -/
  | absent
  deriving DecidableEq, Repr

namespace Cursor

/-- Token start, position, window end and length of the bytes ascend. -/
def WellFormed (c : Cursor) : Prop :=
  c.start ≤ c.pos ∧ c.pos ≤ c.stop ∧ c.stop ≤ c.bytes.length

instance (c : Cursor) : Decidable c.WellFormed :=
  inferInstanceAs (Decidable (_ ∧ _ ∧ _))

/-- A cursor at the front of a whole byte string. -/
def ofBytes (bytes : Bytes) : Cursor := ⟨bytes, 0, 0, bytes.length, none⟩

/-- A cursor at the front of a window, whose bounds are drawn into the byte
string. -/
def within (bytes : Bytes) (start stop : Nat) : Cursor :=
  let stop := min stop bytes.length
  let start := min start stop
  ⟨bytes, start, start, stop, none⟩

/-- The unread bytes of the window. -/
def rest (c : Cursor) : Bytes := c.bytes.slice c.pos c.stop

/-- The bytes of the current token. -/
def token (c : Cursor) : Bytes := c.bytes.slice c.start c.pos

/-- How many bytes of the window are unread. -/
def remaining (c : Cursor) : Nat := c.stop - c.pos

/-- Whether the window is used up. -/
def atEnd (c : Cursor) : Bool := c.stop ≤ c.pos

/-- The next byte. -/
def peek (c : Cursor) : Option UInt8 := c.rest.head?

/-- The cursor `n` bytes further on. -/
def advance (c : Cursor) (n : Nat) : Cursor := { c with pos := c.pos + n }

/-- What a scan takes from the unread bytes. -/
def take (scan : Scan) (c : Cursor) : Option Nat × Cursor :=
  match scan c.rest with
  | some n => (some n, c.advance n)
  | none => (none, c)

/-- The cursor behind what a scan takes, if it applies. -/
def read? (scan : Scan) (c : Cursor) : Option Cursor := (scan c.rest).map c.advance

/-- Whether a scan applies, with the cursor behind what it takes. -/
def accept (scan : Scan) (c : Cursor) : Bool × Cursor :=
  match c.read? scan with
  | some next => (true, next)
  | none => (false, c)

/-- The next byte, taken. -/
def next (c : Cursor) : Option (UInt8 × Cursor) := c.peek.map fun b => (b, c.advance 1)

/-- A new token begins at the position. -/
def beginToken (c : Cursor) : Cursor := { c with start := c.pos }

/-- The token, and a cursor with a new one. -/
def collect (c : Cursor) : Bytes × Cursor := (c.token, c.beginToken)

/-- The token as text, if it is a non-empty one; a new token begins in any
case. -/
def collectText (c : Cursor) : Option String × Cursor :=
  (if c.token.isEmpty then none else Utf8.decode? c.token, c.beginToken)

/-- Back by `n` bytes, not past the token start. -/
def retreat (c : Cursor) (n : Nat) : Cursor := { c with pos := max (c.pos - n) c.start }

/-- To a position, drawn back to the window end; the token start is drawn back
with it. -/
def seek (c : Cursor) (pos : Nat) : Cursor :=
  let pos := min pos c.stop
  { c with pos, start := min c.start pos }

/-- To the front of another window of the same byte string. -/
def moveWindow (c : Cursor) (start stop : Nat) : Cursor :=
  { within c.bytes start stop with milestone := c.milestone }

/-- To the front of the whole byte string, without a milestone. -/
def rewind (c : Cursor) : Cursor := ofBytes c.bytes

/-- Arms the milestone. -/
def arm (c : Cursor) (pos : Nat) : Cursor := { c with milestone := some pos }

/-- To the window end. -/
def jumpToEnd (c : Cursor) : Cursor := { c with pos := c.stop }

/-- The first position at or behind `pos` that holds the byte, in the whole byte
string. -/
def find (c : Cursor) (b : UInt8) (pos : Nat) : Option Nat :=
  ((c.bytes.drop pos).idxOf? b).map (pos + ·)

/-- Onto the next such byte, if it stands in the window. -/
def jumpTo (c : Cursor) (b : UInt8) : Jump × Cursor :=
  match c.find b c.pos with
  | none => (.absent, c)
  | some target =>
    if c.start ≤ target ∧ target < c.stop then (.moved target, { c with pos := target })
    else (.outside target, c)

/-- The readable form of a cursor. -/
def describe (c : Cursor) : String :=
  "ByteCursor \x7b token: " ++ Quoted.ofBytes c.token ++ ", rest: " ++ Quoted.ofBytes c.rest ++
    ", start: " ++ toString c.start ++ ", pos: " ++ toString c.pos ++ ", end: " ++
    toString c.stop ++ ", milestone: " ++
    (match c.milestone with
      | none => "None"
      | some pos => "Some(" ++ toString pos ++ ")") ++ " \x7d"

theorem take_eq_of_none {scan : Scan} {c : Cursor} (fails : scan c.rest = none) :
    c.take scan = (none, c) := by
  simp [take, fails]

theorem take_eq_of_some {scan : Scan} {c : Cursor} {n : Nat} (takes : scan c.rest = some n) :
    c.take scan = (some n, c.advance n) := by
  simp [take, takes]

/-- A byte of a class is one byte. -/
theorem read?_byte {c : Cursor} {cls : UInt8 → Bool} {b : UInt8} {rest : Bytes}
    (unread : c.rest = b :: rest) :
    c.read? (Scan.byte cls) = if cls b then some (c.advance 1) else none := by
  cases fits : cls b <;> simp [read?, Scan.byte, unread, fits]

/-- A run is all bytes of a class that come next, and not empty. -/
theorem read?_run (c : Cursor) (cls : UInt8 → Bool) :
    c.read? (Scan.run cls) =
      if (c.rest.takeWhile cls).length = 0 then none
      else some (c.advance (c.rest.takeWhile cls).length) := by
  unfold read? Scan.run Scan.nonzero
  split <;> rfl

theorem advance_of_read?_byte {c d : Cursor} {cls : UInt8 → Bool}
    (found : c.read? (Scan.byte cls) = some d) : c.rest ≠ [] ∧ d = c.advance 1 := by
  cases unread : c.rest with
  | nil => simp [read?, Scan.byte, unread] at found
  | cons b rest =>
    rw [read?_byte unread] at found
    split at found <;> cases found
    exact ⟨List.cons_ne_nil b rest, rfl⟩

@[simp] theorem rest_ofBytes (bytes : Bytes) : (ofBytes bytes).rest = bytes := by
  simp [rest, ofBytes, Bytes.slice]

theorem rest_advance (c : Cursor) (n : Nat) : (c.advance n).rest = c.rest.drop n := by
  simp [rest, advance, Bytes.slice, List.drop_drop]

section Shorter

variable {c d : Cursor} {cls : UInt8 → Bool} {n : Nat}

theorem length_rest_advance_le (c : Cursor) (n : Nat) :
    (c.advance n).rest.length ≤ c.rest.length := by
  rw [rest_advance, List.length_drop]
  exact Nat.sub_le _ _

theorem length_rest_advance_lt (positive : 0 < n) (unread : c.rest ≠ []) :
    (c.advance n).rest.length < c.rest.length := by
  have := List.length_pos_iff.mpr unread
  rw [rest_advance, List.length_drop]
  omega

theorem length_rest_of_read?_byte (found : c.read? (Scan.byte cls) = some d) :
    d.rest.length < c.rest.length := by
  obtain ⟨unread, rfl⟩ := advance_of_read?_byte found
  exact length_rest_advance_lt Nat.one_pos unread

theorem length_rest_of_read?_run (found : c.read? (Scan.run cls) = some d) :
    d.rest.length < c.rest.length := by
  rw [read?_run] at found
  split at found <;> cases found
  rename_i nonempty
  refine length_rest_advance_lt (Nat.pos_of_ne_zero nonempty) fun empty => ?_
  simp [empty] at nonempty

theorem length_rest_accept (c : Cursor) (scan : Scan) :
    (c.accept scan).2.rest.length ≤ c.rest.length := by
  unfold accept
  split
  · rename_i found
    obtain ⟨n, _, rfl⟩ := Option.map_eq_some_iff.mp found
    exact length_rest_advance_le c n
  · exact Nat.le_refl _

theorem length_rest_of_jumpTo {b : UInt8} {target : Nat}
    (moved : c.jumpTo b = (.moved target, d)) : d.rest.length ≤ c.rest.length := by
  unfold jumpTo at moved
  split at moved
  · cases moved
  · rename_i found
    split at moved <;> cases moved
    obtain ⟨n, _, rfl⟩ := Option.map_eq_some_iff.mp found
    simp only [rest, Bytes.length_slice]
    omega

theorem length_rest_of_next {b : UInt8} (read : c.next = some (b, d)) :
    d.rest.length < c.rest.length := by
  obtain ⟨b, peeked, same⟩ := Option.map_eq_some_iff.mp read
  cases same
  refine length_rest_advance_lt Nat.one_pos fun empty => ?_
  simp [peek, empty] at peeked

end Shorter

theorem WellFormed.length_rest {c : Cursor} (wf : c.WellFormed) :
    c.rest.length = c.remaining := by
  obtain ⟨_, _, bound⟩ := wf
  simp only [rest, remaining, Bytes.length_slice, Nat.min_eq_left bound]

theorem wellFormed_ofBytes (bytes : Bytes) : (ofBytes bytes).WellFormed :=
  ⟨Nat.le_refl _, Nat.zero_le _, Nat.le_refl _⟩

theorem wellFormed_within (bytes : Bytes) (start stop : Nat) :
    (within bytes start stop).WellFormed :=
  ⟨Nat.le_refl _, Nat.min_le_right _ _, Nat.min_le_right _ _⟩

theorem WellFormed.advance {c : Cursor} (wf : c.WellFormed) {n : Nat}
    (inside : n ≤ c.rest.length) : (c.advance n).WellFormed := by
  rw [wf.length_rest] at inside
  obtain ⟨_, _, _⟩ := wf
  simp only [WellFormed, Cursor.advance, remaining] at *
  omega

end Cursor

end Octets
