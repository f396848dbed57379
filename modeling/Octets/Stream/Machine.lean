import Octets.Cursor
import Octets.Stream.Carry

/-!
# Machines that read a stream in chunks

A machine reads a chunk through a cursor. A step of it takes a run of bytes at once, or
one byte, or none; what it leaves open at the end of the chunk is carried over to the
next. The machine goes on step by step until the chunk is used up or the stream has been
read to its end. A step that takes nothing lowers the rank of the memory, so the steps
come to an end.

## Main definitions

* `Stream.Parser`, `Stream.Place` — a machine between two calls, and inside of a chunk
* `Stream.Step` — what comes of a step
* `Place.begin`, `Place.through`, `Place.expect`, `Place.close` — what steps are made of
* `Stream.Machine`, `Machine.run` — a machine, and its steps through a chunk
* `Machine.feed`, `Machine.feedWindow` — one more chunk of the stream
-/

namespace Octets.Stream

variable {σ ε : Type}

/-- A machine between two calls: what it remembers, what it carries over, and how many
bytes of the stream have been consumed. -/
structure Parser (σ : Type) where
  memory : σ
  carry : Carry
  consumed : Nat

/-- A machine inside of a chunk. -/
structure Place (σ : Type) extends Parser σ where
  cursor : Cursor

/-- What comes of a step. -/
inductive Step (σ ε : Type) where
  | goes (next : Place σ)
  /-- The byte under the cursor, or the token in front of it, does not fit. -/
  | fails (fault : ε) (left : Place σ)

namespace Place

/-- Over one byte. -/
def next (p : Place σ) : Place σ := { p with cursor := p.cursor.advance 1 }

/-- Over the bytes of a class that come next. -/
def skip (p : Place σ) (cls : UInt8 → Bool) : Place σ :=
  { p with cursor := (p.cursor.take (Scan.run cls)).2 }

/-- Begins a token with a byte of a class, if that comes next. -/
def begin? (p : Place σ) (cls : UInt8 → Bool) (memory : σ) : Option (Place σ) :=
  (p.cursor.read? (Scan.byte cls)).map fun cursor =>
    { p with memory, cursor, carry := p.carry.begin p.cursor.pos }

/-- Begins a token with a byte of a class. -/
def begin (p : Place σ) (cls : UInt8 → Bool) (memory : σ) (fault : ε) : Step σ ε :=
  match p.begin? cls memory with
  | some next => .goes next
  | none => .fails fault p

/-- Over one byte of a class. -/
def expect (p : Place σ) (cls : UInt8 → Bool) (memory : σ) (fault : ε) : Step σ ε :=
  match p.cursor.read? (Scan.byte cls) with
  | some cursor => .goes { p with memory, cursor }
  | none => .fails fault p

/-- Over the bytes of a class. If the chunk does not end with them, the byte behind them
says what follows. -/
def through (p : Place σ) (cls : UInt8 → Bool) (behind : UInt8 → Place σ → Step σ ε) :
    Step σ ε :=
  let p := p.skip cls
  match p.cursor.peek with
  | none => .goes p
  | some b => behind b p

/-- Ends the open token at the cursor and makes use of its bytes. -/
def close (p : Place σ) (tooLong : Nat → ε) (use : Bytes → Except ε σ) : Step σ ε :=
  match p.carry.collect p.cursor.bytes p.cursor.pos with
  | .error limit => .fails (tooLong limit) p
  | .ok (token, carry) =>
    match use token with
    | .error fault => .fails fault { p with carry }
    | .ok memory => .goes { p with memory, carry }

/-- Ends the open token at the cursor and goes over the byte behind it. -/
def closeBehind (p : Place σ) (tooLong : Nat → ε) (use : Bytes → Except ε σ) : Step σ ε :=
  match p.close tooLong use with
  | .goes next => .goes next.next
  | .fails fault left => .fails fault left

@[simp] theorem cursor_next (p : Place σ) : p.next.cursor = p.cursor.advance 1 := rfl

/-- Skipping takes the longest run of the class, which may be empty. -/
theorem cursor_skip (p : Place σ) (cls : UInt8 → Bool) :
    (p.skip cls).cursor = p.cursor.advance (p.cursor.rest.takeWhile cls).length := by
  cases run : (p.cursor.rest.takeWhile cls).length with
  | zero =>
    have nothing : Scan.run cls p.cursor.rest = none := by simp [Scan.run, run]
    simp [skip, Cursor.take_eq_of_none nothing, Cursor.advance]
  | succ n =>
    have taken : Scan.run cls p.cursor.rest = some (n + 1) := by simp [Scan.run, run]
    simp [skip, Cursor.take_eq_of_some taken]

theorem rest_skip (p : Place σ) (cls : UInt8 → Bool) :
    (p.skip cls).cursor.rest = p.cursor.rest.dropWhile cls := by
  have cut : p.cursor.rest.takeWhile cls ++ p.cursor.rest.dropWhile cls = p.cursor.rest :=
    List.takeWhile_append_dropWhile
  rw [cursor_skip, Cursor.rest_advance]
  exact (congrArg (List.drop _) cut.symm).trans List.drop_left

/-- The byte behind the skipped ones is not of the class. -/
theorem eq_false_of_rest_skip {p : Place σ} {cls : UInt8 → Bool} {b : UInt8} {rest : Bytes}
    (left : (p.skip cls).cursor.rest = b :: rest) : cls b = false := by
  have first := List.head?_dropWhile_not cls p.cursor.rest
  rw [← rest_skip, left] at first
  simpa using first

end Place

/-! ## Steps come to an end -/

namespace Step

variable {p : Place σ} {cls : UInt8 → Bool} {memory : σ} {fault : ε}

/-- A step that goes on has taken a byte at least. -/
def Takes (p : Place σ) : Step σ ε → Prop
  | .goes next => next.cursor.rest.length < p.cursor.rest.length
  | .fails _ _ => True

/-- A step that goes on has taken a byte at least, or it has lowered the rank. -/
def Progresses (rank : σ → Nat) (p : Place σ) : Step σ ε → Prop
  | .goes next =>
    next.cursor.rest.length < p.cursor.rest.length ∨
      next.cursor.rest.length = p.cursor.rest.length ∧ rank next.memory < rank p.memory
  | .fails _ _ => True

theorem Takes.progresses {step : Step σ ε} (takes : step.Takes p) (rank : σ → Nat) :
    step.Progresses rank p := by
  cases step with
  | goes next => exact .inl takes
  | fails fault left => trivial

theorem takes_goes_of_advance {next : Place σ} (unread : p.cursor.rest ≠ [])
    (advances : next.cursor = p.cursor.advance 1) :
    (goes next : Step σ ε).Takes p := by
  have pos := List.length_pos_iff.mpr unread
  simp only [Takes, advances, Cursor.rest_advance, List.length_drop]
  omega

theorem begin?_eq {b : UInt8} {rest : Bytes} (unread : p.cursor.rest = b :: rest) :
    p.begin? cls memory =
      if cls b then some { p.next with memory, carry := p.carry.begin p.cursor.pos }
      else none := by
  rw [Place.begin?, Cursor.read?_byte unread]
  cases cls b <;> rfl

theorem takes_begin? {next : Place σ} (begins : p.begin? cls memory = some next) :
    (goes next : Step σ ε).Takes p := by
  obtain ⟨cursor, found, rfl⟩ := Option.map_eq_some_iff.mp begins
  obtain ⟨unread, ahead⟩ := Cursor.advance_of_read?_byte found
  exact takes_goes_of_advance unread ahead

theorem takes_begin : (p.begin cls memory fault).Takes p := by
  unfold Place.begin
  split
  · exact takes_begin? ‹_›
  · trivial

theorem takes_expect : (p.expect cls memory fault).Takes p := by
  unfold Place.expect
  split
  · obtain ⟨unread, ahead⟩ := Cursor.advance_of_read?_byte ‹_›
    exact takes_goes_of_advance unread ahead
  · trivial

/-- Whatever the byte behind a run says, bytes are taken: either the run reaches to the
end of the chunk, or what follows takes one. -/
theorem takes_through {behind : UInt8 → Place σ → Step σ ε} (unread : p.cursor.rest ≠ [])
    (takes : ∀ b q, q.cursor.rest ≠ [] → (behind b q).Takes q) :
    (p.through cls behind).Takes p := by
  have shorter : (p.skip cls).cursor.rest.length ≤ p.cursor.rest.length := by
    rw [Place.rest_skip]
    exact (List.dropWhile_suffix cls).length_le
  simp only [Place.through]
  cases peeked : (p.skip cls).cursor.peek with
  | none =>
    have ended : (p.skip cls).cursor.rest = [] := List.head?_eq_none_iff.mp peeked
    simpa [Takes, ended] using List.length_pos_iff.mpr unread
  | some b =>
    obtain ⟨rest, left⟩ := List.head?_eq_some_iff.mp peeked
    have further := takes b (p.skip cls) (by simp [left])
    simp only
    cases stepped : behind b (p.skip cls) with
    | goes next =>
      rw [stepped] at further
      exact Nat.lt_of_lt_of_le further shorter
    | fails fault place => trivial

theorem takes_closeBehind {tooLong : Nat → ε} {use : Bytes → Except ε σ}
    (unread : p.cursor.rest ≠ []) : (p.closeBehind tooLong use).Takes p := by
  unfold Place.closeBehind Place.close
  cases p.carry.collect p.cursor.bytes p.cursor.pos with
  | error limit => trivial
  | ok collected =>
    obtain ⟨token, carry⟩ := collected
    simp only
    cases use token with
    | error fault => trivial
    | ok memory => exact takes_goes_of_advance unread rfl

end Step

/-! ## Machines -/

/-- A machine that reads a stream in chunks. -/
structure Machine (σ ε : Type) where
  /-- Whether the stream has been read to its end. -/
  isDone : σ → Bool
  step : Place σ → Step σ ε
  /-- The fault of a token longer than the given limit. -/
  tooLong : Nat → ε
  /-- How many steps in a row may take nothing. -/
  rank : σ → Nat
  progresses (p : Place σ) (unread : p.cursor.rest ≠ []) (pending : isDone p.memory = false) :
    (step p).Progresses rank p

namespace Machine

/-- Goes on until the chunk is used up, or the stream has been read to its end. -/
def run (machine : Machine σ ε) (p : Place σ) : Step σ ε :=
  if _ended : p.cursor.rest = [] ∨ machine.isDone p.memory = true then .goes p
  else
    match _stepped : machine.step p with
    | .goes next => machine.run next
    | .fails fault left => .fails fault left
termination_by (p.cursor.rest.length, machine.rank p.memory)
decreasing_by
  rw [not_or, Bool.not_eq_true] at _ended
  have progress := machine.progresses p _ended.1 _ended.2
  rw [_stepped] at progress
  exact Prod.lex_def.mpr progress

/-- At the end of a chunk, puts the open token aside. -/
def suspend (machine : Machine σ ε) (p : Place σ) : Step σ ε :=
  if machine.isDone p.memory then .goes p
  else
    match p.carry.suspend p.cursor.bytes p.cursor.stop with
    | .error limit => .fails (machine.tooLong limit) p
    | .ok carry => .goes { p with carry }

/-- Reads a chunk to its end. -/
def readChunk (machine : Machine σ ε) (p : Place σ) : Step σ ε :=
  match machine.run p with
  | .goes last => machine.suspend last
  | .fails fault left => .fails fault left

/-- Feeds a window of a buffer as the next chunk of the stream; the answer says whether
the stream has been read to its end. A failed call consumes nothing. -/
def feedWindow (machine : Machine σ ε) (parser : Parser σ) (buffer : Bytes) (start stop : Nat) :
    Parser σ × Except (Failure ε) Bool :=
  if machine.isDone parser.memory then (parser, .ok true)
  else
    let cursor := Cursor.within buffer start stop
    match machine.readChunk { parser with cursor } with
    | .goes last =>
      ({ last.toParser with consumed := parser.consumed + (last.cursor.pos - cursor.pos) },
        .ok (machine.isDone last.memory))
    | .fails fault left =>
      (left.toParser, .error ⟨fault, parser.consumed + (left.cursor.pos - cursor.pos)⟩)

end Machine

end Octets.Stream
