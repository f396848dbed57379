import Mathlib.Data.List.TakeWhile
import Octets.Proofs.Cursor.Ahead
import Octets.Proofs.Stream.Chunking
import Octets.Stream.Machine

/-!
# Machines that read as a grammar does

A machine reads a chunk through a cursor, in steps of any length; a grammar reads it byte
by byte. Here is when the two agree. From the memory of a machine that of the grammar is
read off, and from the carry and the cursor the open token. Reading on from a place of the
machine has an end, in the eyes of the grammar: a position, and there a session or a fault.
A step that goes on must not change that end, and a step that fails must find it. Then a
whole run ends where the grammar does, and so do any number of chunks and windows, cut
tokens included.

In between, the carry stays in order: no bytes are put aside unless a token is open, and the
memory tells whether one is.

## Main definitions

* `View`, `View.session`, `View.sessionAt` — a machine as a session of a grammar
* `View.Stands`, `View.Rests` — the carry is in order inside of a chunk, and between two
* `View.ends`, `View.Agrees` — where reading ends, and a step that keeps to it
* `View.Simulates` — a machine all of whose steps do

## Main results

* `agrees_begin`, `agrees_through`, `agrees_closeBehind` and their like — what steps are
  made of agrees with the moves of a grammar
* `Simulates.run` — a run through a chunk
* `Simulates.feedWindow` — a call
-/

namespace Octets.Stream

variable {σ τ ε : Type}

/-! ## Bytes that leave the memory of a grammar alone -/

namespace Grammar

variable {g : Grammar τ ε} {s : Session τ} {b : UInt8} {front rest : Bytes} {fault : ε}

/-- A byte that is one more of the open token, or outside of every token, and changes
nothing else. -/
def Stays (g : Grammar τ ε) (s : Session τ) (b : UInt8) : Prop :=
  g.move s.memory b = .inside s.memory ∨
    s.token = none ∧ g.move s.memory b = .outside s.memory

theorem Stays.read (stays : g.Stays s b) : g.read s b = .ok (s.extend [b]) := by
  obtain inside | ⟨closed, outside⟩ := stays
  · simp only [Grammar.read, inside]
    rfl
  · obtain ⟨memory, token, limit, consumed⟩ := s
    subst closed
    simp only [Grammar.read, outside]
    rfl

theorem Stays.extend (stays : g.Stays s b) (bytes : Bytes) : g.Stays (s.extend bytes) b := by
  obtain inside | ⟨closed, outside⟩ := stays
  · exact .inl inside
  · exact .inr ⟨by simp [Session.extend, closed], outside⟩

theorem readAll_of_stays (rest : Bytes) (pending : g.isDone s.memory = false)
    (stays : ∀ b ∈ front, g.Stays s b) :
    g.readAll s (front ++ rest) =
      let reading := g.readAll (s.extend front) rest
      { reading with taken := front.length + reading.taken } := by
  induction front generalizing s with
  | nil => simp
  | cons b front ih =>
    have joined : (s.extend [b]).extend front = s.extend (b :: front) := by
      simp [Session.extend, Function.comp_def]
    have further := ih (s := s.extend [b]) pending fun c inside =>
      (stays c (List.mem_cons_of_mem b inside)).extend [b]
    rw [joined] at further
    simp only [List.cons_append, readAll, pending, Bool.false_eq_true, if_false,
      (stays b List.mem_cons_self).read, further, List.length_cons, Nat.add_right_comm]

/-- Reading a byte depends on what the memory makes of it. -/
theorem read_of_move_eq {m : τ} (same : g.move s.memory b = g.move m b) :
    g.read s b = g.read { s with memory := m } b := by
  simp only [read, ← same]
  cases g.move s.memory b <;> rfl

/-- At the end of a chunk nothing more is found if the open token is short enough. -/
theorem readChunk_of_fits {chunk : Bytes} (clean : (g.readAll s chunk).fault = none)
    (fits : g.isDone (g.readAll s chunk).session.memory = true ∨
      (g.readAll s chunk).session.exceeded = none) :
    g.readChunk s chunk = g.readAll s chunk := by
  simp only [readChunk, clean]
  obtain done | fits := fits
  · rw [if_pos done]
  · simp [fits, ← clean]

theorem readChunk_of_exceeded {chunk : Bytes} (clean : (g.readAll s chunk).fault = none)
    (pending : g.isDone (g.readAll s chunk).session.memory = false) :
    g.readChunk s chunk =
      { g.readAll s chunk with
        fault := (g.readAll s chunk).session.exceeded.map g.tooLong } := by
  simp [readChunk, clean, pending]

theorem readChunk_of_fault {chunk : Bytes} (found : (g.readAll s chunk).fault = some fault) :
    g.readChunk s chunk = g.readAll s chunk := by
  simp [readChunk, found]

/-- A window is read from its front, with the bytes in front of it in the open token. -/
theorem feedWindow_of_pending (pending : g.isDone s.memory = false) (buffer : Bytes)
    (start stop : Nat) :
    g.feedWindow s buffer start stop =
      let window := Cursor.within buffer start stop
      let reading := g.readChunk (s.extend (buffer.take window.pos)) window.rest
      match reading.fault with
      | some fault => (reading.session, .error ⟨fault, s.consumed + reading.taken⟩)
      | none =>
        (reading.session.recount (s.consumed + reading.taken),
          .ok (g.isDone reading.session.memory)) := by
  rw [feedWindow, if_neg (by simp [pending])]
  rfl

end Grammar

/-! ## A machine as a session -/

/-- How the memory of a machine is read as that of a grammar, and whether a token is open
in it. -/
structure View (σ τ : Type) where
  memory : σ → τ
  Holds : σ → Bool → Prop

namespace View

variable (v : View σ τ)

/-- The session of a machine between two calls. -/
def session (p : Parser σ) : Session τ :=
  ⟨v.memory p.memory, p.carry.opened.map fun _ => p.carry.held, p.carry.limit, p.consumed⟩

/-- The session of a machine inside of a chunk. The open token goes up to the cursor. -/
def sessionAt (p : Place σ) : Session τ :=
  ⟨v.memory p.memory, p.carry.token p.cursor.bytes p.cursor.pos, p.carry.limit, p.consumed⟩

/-- Between two calls the memory tells whether a token is open. An open token goes on at the
front of the next buffer, and without one nothing is put aside. -/
structure Rests (p : Parser σ) : Prop where
  holds : v.Holds p.memory p.carry.opened.isSome
  held_eq_nil : p.carry.opened = none → p.carry.held = []
  opened_eq_zero : ∀ start ∈ p.carry.opened, start = 0

/-- Inside of a chunk an open token begins, or goes on, in front of the cursor. -/
structure Stands (p : Place σ) : Prop where
  wellFormed : p.cursor.WellFormed
  holds : v.Holds p.memory p.carry.opened.isSome
  held_eq_nil : p.carry.opened = none → p.carry.held = []
  opened_le : ∀ start ∈ p.carry.opened, start ≤ p.cursor.pos

/-- Where reading on from a place ends, and in which session or with which fault. -/
def ends (g : Grammar τ ε) (p : Place σ) : Nat × Except ε (Session τ) :=
  let reading := g.readAll (v.sessionAt p) p.cursor.rest
  (p.cursor.pos + reading.taken,
    match reading.fault with
    | some fault => .error fault
    | none => .ok reading.session)

/-- A step agrees with a grammar: it goes on to a place from which reading ends as before, or
it fails where reading does. -/
def Agrees (g : Grammar τ ε) (p : Place σ) : Step σ ε → Prop
  | .goes next => v.Stands next ∧ v.ends g p = v.ends g next
  | .fails fault left =>
    g.isDone (v.memory left.memory) = false ∧ v.ends g p = (left.cursor.pos, .error fault)

/-- A machine all of whose steps agree with a grammar. -/
structure Simulates (machine : Machine σ ε) (g : Grammar τ ε) : Prop where
  isDone_memory {m : σ} (done : machine.isDone m = true) : g.isDone (v.memory m) = true
  /-- Where the grammar has come to its end, so has the machine, and no token is open. -/
  isDone {m : σ} {isOpen : Bool} (holds : v.Holds m isOpen)
    (done : g.isDone (v.memory m) = true) : machine.isDone m = true ∧ isOpen = false
  tooLong_eq : g.tooLong = machine.tooLong
  step {p : Place σ} (stands : v.Stands p) (unread : p.cursor.rest ≠ [])
    (pending : g.isDone (v.memory p.memory) = false) : v.Agrees g p (machine.step p)

variable {v} {g : Grammar τ ε} {p next left : Place σ} {b : UInt8} {rest : Bytes}
  {cls : UInt8 → Bool} {fault : ε}

/-! ## The open token -/

/-- Bytes that the cursor goes over are added to the open token, if there is one. -/
theorem sessionAt_advance (stands : v.Stands p) {n : Nat} (inside : n ≤ p.cursor.rest.length) :
    v.sessionAt { p with cursor := p.cursor.advance n } =
      (v.sessionAt p).extend (p.cursor.rest.take n) := by
  have ahead : p.cursor.IsAhead (p.cursor.advance n) n := ⟨inside, rfl⟩
  cases opened : p.carry.opened with
  | none => simp [sessionAt, Session.extend, Carry.token, opened]
  | some start =>
    have joined : p.cursor.bytes.slice start p.cursor.pos ++
        p.cursor.bytes.slice p.cursor.pos (p.cursor.pos + n) =
          p.cursor.bytes.slice start (p.cursor.pos + n) :=
      Bytes.slice_append_slice (stands.opened_le start opened) (Nat.le_add_right _ _)
    rw [← ahead.slice]
    simp [sessionAt, Session.extend, Carry.token, opened, Cursor.advance, joined]

theorem Stands.advance (stands : v.Stands p) {n : Nat} (inside : n ≤ p.cursor.rest.length) :
    v.Stands { p with cursor := p.cursor.advance n } :=
  ⟨stands.wellFormed.advance inside, stands.holds, stands.held_eq_nil, fun start opened =>
    Nat.le_trans (stands.opened_le start opened) (Nat.le_add_right _ _)⟩

theorem stands_next (stands : v.Stands p) (unread : p.cursor.rest = b :: rest) :
    v.Stands p.next :=
  stands.advance (by simp [unread])

/-- One byte on, the open token has the byte. -/
theorem sessionAt_next (stands : v.Stands p) (unread : p.cursor.rest = b :: rest) :
    v.sessionAt p.next = (v.sessionAt p).extend [b] := by
  have inside : 1 ≤ p.cursor.rest.length := by simp [unread]
  have advanced := sessionAt_advance stands inside
  rwa [unread] at advanced

/-- The place without an open token, and with another memory. -/
theorem Stands.cleared (stands : v.Stands p) {memory : σ} (holds : v.Holds memory false) :
    v.Stands { p with memory, carry := { p.carry with held := [], opened := none } } :=
  ⟨stands.wellFormed, holds, fun _ => rfl, fun _ opened => nomatch opened⟩

/-- What exceeds the limit in the carry does so in the session. -/
theorem exceeded_sessionAt (stands : v.Stands p) :
    (v.sessionAt p).exceeded = p.carry.exceeded p.cursor.pos := by
  obtain ⟨_, ascend, bound⟩ := stands.wellFormed
  cases opened : p.carry.opened with
  | none =>
    have empty := stands.held_eq_nil opened
    cases limit : p.carry.limit <;>
      simp [Session.exceeded, Carry.exceeded, Carry.length, sessionAt, Carry.token, opened, empty,
        limit]
  | some start =>
    have length : (p.cursor.bytes.slice start p.cursor.pos).length = p.cursor.pos - start := by
      rw [Bytes.length_slice, Nat.min_eq_left (Nat.le_trans ascend bound)]
    cases limit : p.carry.limit <;>
      simp [Session.exceeded, Carry.exceeded, Carry.length, sessionAt, Carry.token, opened, limit,
        length]

/-- What the carry gives out is the open token of the session. -/
theorem collect_sessionAt (stands : v.Stands p) :
    p.carry.collect p.cursor.bytes p.cursor.pos =
      match (v.sessionAt p).exceeded with
      | some limit => .error limit
      | none =>
        .ok ((v.sessionAt p).openBytes, { p.carry with held := [], opened := none }) := by
  rw [exceeded_sessionAt stands, Carry.collect]
  cases p.carry.exceeded p.cursor.pos with
  | some limit => rfl
  | none =>
    cases opened : p.carry.opened with
    | none =>
      simp [Session.openBytes, sessionAt, Carry.token, opened, stands.held_eq_nil opened]
    | some start =>
      simp [Session.openBytes, sessionAt, Carry.token, opened,
        Nat.min_eq_left (stands.opened_le start opened)]

/-- At the end of a chunk the open token is put aside, unless it is too long. -/
theorem suspend_sessionAt (stands : v.Stands p) (atEnd : p.cursor.pos = p.cursor.stop) :
    match p.carry.suspend p.cursor.bytes p.cursor.stop with
    | .error limit => (v.sessionAt p).exceeded = some limit
    | .ok carry =>
      (v.sessionAt p).exceeded = none ∧ v.Rests { p.toParser with carry } ∧
        v.session { p.toParser with carry } = v.sessionAt p := by
  have exceeded := exceeded_sessionAt stands
  have holds := stands.holds
  rw [atEnd] at exceeded
  cases opened : p.carry.opened with
  | none =>
    have nothing : p.carry.suspend p.cursor.bytes p.cursor.stop = .ok p.carry := by
      simp [Carry.suspend, opened]
    rw [nothing]
    refine ⟨?_, ⟨holds, stands.held_eq_nil, by simp [opened]⟩, ?_⟩
    · simp [Session.exceeded, sessionAt, Carry.token, opened]
    · simp [session, sessionAt, Carry.token, opened]
  | some start =>
    have behind := stands.opened_le start opened
    rw [atEnd] at behind
    rw [opened] at holds
    simp only [Carry.suspend, opened]
    cases tooLong : p.carry.exceeded p.cursor.stop with
    | some limit => exact exceeded.trans tooLong
    | none =>
      refine ⟨exceeded.trans tooLong, ⟨holds, (nomatch ·), by simp⟩, ?_⟩
      simp [session, sessionAt, Carry.token, opened, atEnd, Nat.min_eq_left behind]

/-- Where a call begins, an open token goes on at the front of the buffer. -/
theorem stands_within {parser : Parser σ} (rests : v.Rests parser) (buffer : Bytes)
    (start stop : Nat) :
    let cursor := Cursor.within buffer start stop
    v.Stands { parser with cursor } ∧
      v.sessionAt { parser with cursor } =
        (v.session parser).extend (buffer.take cursor.pos) := by
  intro cursor
  have front : ∀ start ∈ parser.carry.opened, start ≤ cursor.pos := by
    intro start opened
    rw [rests.opened_eq_zero start opened]
    exact Nat.zero_le _
  refine ⟨⟨Cursor.wellFormed_within .., rests.holds, rests.held_eq_nil, front⟩, ?_⟩
  cases opened : parser.carry.opened with
  | none => simp [session, sessionAt, Session.extend, Carry.token, opened]
  | some start =>
    obtain rfl := rests.opened_eq_zero start opened
    simp [session, sessionAt, Session.extend, Carry.token, opened, Bytes.slice, cursor,
      Cursor.within]

/-! ## Where reading ends -/

theorem ends_of_ended (ended : p.cursor.rest = [] ∨ g.isDone (v.memory p.memory) = true) :
    v.ends g p = (p.cursor.pos, .ok (v.sessionAt p)) := by
  have nothing : g.readAll (v.sessionAt p) p.cursor.rest = ⟨v.sessionAt p, 0, none⟩ := by
    obtain empty | done := ended
    · rw [empty]
      rfl
    · exact Grammar.readAll_of_done done _
  simp only [ends, nothing, Nat.add_zero]

section Ends

variable (unread : p.cursor.rest = b :: rest) (pending : g.isDone (v.memory p.memory) = false)
include unread pending

/-- One byte on, reading ends as before. -/
theorem ends_of_read (advances : next.cursor = p.cursor.advance 1)
    (reads : g.read (v.sessionAt p) b = .ok (v.sessionAt next)) : v.ends g p = v.ends g next := by
  have left : next.cursor.rest = rest := by
    rw [advances, Cursor.rest_advance, unread, List.drop_one, List.tail_cons]
  have pending' : g.isDone (v.sessionAt p).memory = false := pending
  have pos : next.cursor.pos = p.cursor.pos + 1 := by rw [advances]; rfl
  simp only [ends, unread, left, pos, Grammar.readAll, pending', Bool.false_eq_true, if_false,
    reads, Nat.add_assoc, Nat.add_comm 1]

/-- Where the next byte is read alike, reading ends alike. -/
theorem ends_of_read_eq (pending' : g.isDone (v.memory next.memory) = false)
    (cursor : next.cursor = p.cursor)
    (same : g.read (v.sessionAt p) b = g.read (v.sessionAt next) b) :
    v.ends g p = v.ends g next := by
  have first : g.isDone (v.sessionAt p).memory = false := pending
  have second : g.isDone (v.sessionAt next).memory = false := pending'
  simp only [ends, cursor, unread, Grammar.readAll, first, second, Bool.false_eq_true, if_false,
    same]
  cases g.read (v.sessionAt next) b <;> rfl

/-- A byte that is refused ends the reading. -/
theorem ends_of_refused {taken : Nat}
    (refused : g.read (v.sessionAt p) b = .error (fault, taken)) :
    v.ends g p = (p.cursor.pos + taken, .error fault) := by
  have pending' : g.isDone (v.sessionAt p).memory = false := pending
  simp only [ends, unread, Grammar.readAll, pending', Bool.false_eq_true, if_false, refused]

omit unread in
/-- Skipped bytes that change nothing, but for an open token, leave the end of the reading. -/
theorem ends_skip (stands : v.Stands p)
    (stays : ∀ b, cls b = true → g.Stays (v.sessionAt p) b) :
    v.Stands (p.skip cls) ∧ v.ends g p = v.ends g (p.skip cls) := by
  have inside : (p.cursor.rest.takeWhile cls).length ≤ p.cursor.rest.length :=
    (List.takeWhile_prefix cls).length_le
  have skipped : p.skip cls =
      { p with cursor := p.cursor.advance (p.cursor.rest.takeWhile cls).length } := by
    rw [← Place.cursor_skip]
    rfl
  have front : p.cursor.rest.take (p.cursor.rest.takeWhile cls).length =
      p.cursor.rest.takeWhile cls :=
    (List.prefix_iff_eq_take.mp (List.takeWhile_prefix cls)).symm
  have session : v.sessionAt (p.skip cls) =
      (v.sessionAt p).extend (p.cursor.rest.takeWhile cls) := by
    rw [skipped, sessionAt_advance stands inside, front]
  refine ⟨skipped ▸ stands.advance inside, ?_⟩
  have taken : ∀ b ∈ p.cursor.rest.takeWhile cls, g.Stays (v.sessionAt p) b :=
    fun b inside => stays b (List.mem_takeWhile_imp inside)
  have pending' : g.isDone (v.sessionAt p).memory = false := pending
  have reading := Grammar.readAll_of_stays (p.cursor.rest.dropWhile cls) pending' taken
  rw [List.takeWhile_append_dropWhile] at reading
  have pos : (p.skip cls).cursor.pos =
      p.cursor.pos + (p.cursor.rest.takeWhile cls).length := by
    rw [Place.cursor_skip]
    rfl
  simp only [ends, reading, session, Place.rest_skip, pos, Nat.add_assoc]

end Ends

/-! ## Steps -/

section Agrees

variable {step : Step σ ε} {memory : σ}

theorem Agrees.of_ends (same : v.ends g p = v.ends g next) (agrees : v.Agrees g next step) :
    v.Agrees g p step := by
  cases step with
  | goes last => exact ⟨agrees.1, same.trans agrees.2⟩
  | fails fault left => exact ⟨agrees.1, same.trans agrees.2⟩

/-- The step and the grammar decide alike. -/
theorem agrees_ite {decision : Prop} [Decidable decision] {step' : Step σ ε} {m m' : Move τ ε}
    (moves : g.move (v.memory p.memory) b = if decision then m else m')
    (yes : g.move (v.memory p.memory) b = m → v.Agrees g p step)
    (no : g.move (v.memory p.memory) b = m' → v.Agrees g p step') :
    v.Agrees g p (if decision then step else step') := by
  split
  · exact yes (moves.trans (if_pos ‹_›))
  · exact no (moves.trans (if_neg ‹_›))

/-- A byte that the grammar refuses. -/
theorem agrees_fails (unread : p.cursor.rest = b :: rest)
    (pending : g.isDone (v.memory p.memory) = false)
    (refuses : g.move (v.memory p.memory) b = .refuse fault)
    (unmoved : left.cursor.pos = p.cursor.pos) (same : left.memory = p.memory) :
    v.Agrees g p (.fails fault left) := by
  have refused : g.read (v.sessionAt p) b = .error (fault, 0) := by
    have refuses' : g.move (v.sessionAt p).memory b = .refuse fault := refuses
    simp only [Grammar.read, refuses']
  refine ⟨by rwa [same], ?_⟩
  rw [ends_of_refused unread pending refused, unmoved, Nat.add_zero]

variable (stands : v.Stands p) (pending : g.isDone (v.memory p.memory) = false)
include stands pending

/-- Bytes of a class go on with the open token, and then the byte behind them decides. -/
theorem agrees_through {behind : UInt8 → Place σ → Step σ ε} {other : UInt8 → Move τ ε}
    (moves : ∀ b, g.move (v.memory p.memory) b =
      if cls b then .inside (v.memory p.memory) else other b)
    (agrees : ∀ b rest, (p.skip cls).cursor.rest = b :: rest → v.Stands (p.skip cls) →
      g.move (v.memory p.memory) b = other b → v.Agrees g (p.skip cls) (behind b (p.skip cls))) :
    v.Agrees g p (p.through cls behind) := by
  obtain ⟨stands', same⟩ :=
    ends_skip pending stands fun b fits => .inl ((moves b).trans (if_pos fits))
  refine Agrees.of_ends same ?_
  simp only [Place.through]
  cases peeked : (p.skip cls).cursor.peek with
  | none => exact ⟨stands', rfl⟩
  | some b =>
    obtain ⟨rest, left⟩ := List.head?_eq_some_iff.mp peeked
    have outside := Bool.eq_false_iff.mp (Place.eq_false_of_rest_skip left)
    exact agrees b rest left stands' ((moves b).trans (if_neg outside))

variable (unread : p.cursor.rest = b :: rest)
include unread

/-- Another memory, in which the next byte is read alike. -/
theorem agrees_remember (holds : v.Holds memory p.carry.opened.isSome)
    (pending' : g.isDone (v.memory memory) = false)
    (same : g.move (v.memory p.memory) b = g.move (v.memory memory) b) :
    v.Agrees g p (.goes { p with memory }) :=
  ⟨⟨stands.wellFormed, holds, stands.held_eq_nil, stands.opened_le⟩,
    ends_of_read_eq unread pending pending' rfl (Grammar.read_of_move_eq same)⟩

/-- A byte outside of every token. -/
theorem agrees_outside (closed : p.carry.opened = none) (holds : v.Holds memory false)
    (outside : g.move (v.memory p.memory) b = .outside (v.memory memory)) :
    v.Agrees g p (.goes { p.next with memory }) := by
  obtain ⟨wellFormed, _, held, opened⟩ := stands_next stands unread
  have holds' : v.Holds memory p.carry.opened.isSome := by rwa [closed]
  refine ⟨⟨wellFormed, holds', held, opened⟩, ends_of_read unread pending rfl ?_⟩
  have outside' : g.move (v.sessionAt p).memory b = .outside (v.memory memory) := outside
  simp only [Grammar.read, outside']
  simp [sessionAt, Carry.token, closed, Place.next]

/-- The first byte of a token. -/
theorem agrees_first (closed : p.carry.opened = none) (holds : v.Holds memory true)
    (first : g.move (v.memory p.memory) b = .first (v.memory memory)) :
    v.Agrees g p (.goes { p.next with memory, carry := p.carry.begin p.cursor.pos }) := by
  have inside : 1 ≤ p.cursor.rest.length := by simp [unread]
  have begun : ∀ start ∈ (p.carry.begin p.cursor.pos).opened, start ≤ p.cursor.pos + 1 := by
    rintro start begun
    obtain rfl := Option.some.inj begun
    exact Nat.le_succ _
  refine ⟨⟨stands.wellFormed.advance inside, holds, (nomatch ·), begun⟩,
    ends_of_read unread pending rfl ?_⟩
  have first' : g.move (v.sessionAt p).memory b = .first (v.memory memory) := first
  have byte : p.cursor.bytes.slice p.cursor.pos (p.cursor.pos + 1) = [b] := by
    have ahead : p.cursor.IsAhead (p.cursor.advance 1) 1 := ⟨inside, rfl⟩
    have between := ahead.slice
    rwa [unread] at between
  simp only [Grammar.read, first']
  simp [sessionAt, Carry.token, Carry.begin, Place.next, Cursor.advance, byte,
    stands.held_eq_nil closed]

/-- A token that is opened in front of its first byte. -/
theorem agrees_open (closed : p.carry.opened = none) (holds : v.Holds memory true)
    (pending' : g.isDone (v.memory memory) = false) {m : τ}
    (first : g.move (v.memory p.memory) b = .first m)
    (inside : g.move (v.memory memory) b = .inside m) :
    v.Agrees g p (.goes { p with memory, carry := p.carry.begin p.cursor.pos }) := by
  have begun : ∀ start ∈ (p.carry.begin p.cursor.pos).opened, start ≤ p.cursor.pos := by
    rintro start begun
    exact Nat.le_of_eq (Option.some.inj begun).symm
  refine ⟨⟨stands.wellFormed, holds, (nomatch ·), begun⟩,
    ends_of_read_eq unread pending pending' rfl ?_⟩
  simp only [Grammar.read, sessionAt, first, inside]
  simp [Session.extend, Carry.token, Carry.begin, Bytes.slice, stands.held_eq_nil closed]

/-- One more byte of the open token. -/
theorem agrees_inside (holds : v.Holds memory p.carry.opened.isSome)
    (inside : g.move (v.memory p.memory) b = .inside (v.memory memory)) :
    v.Agrees g p (.goes { p.next with memory }) := by
  obtain ⟨wellFormed, _, held, opened⟩ := stands_next stands unread
  have session := sessionAt_next stands unread
  refine ⟨⟨wellFormed, holds, held, opened⟩, ends_of_read unread pending rfl ?_⟩
  have inside' : g.move (v.sessionAt p).memory b = .inside (v.memory memory) := inside
  simp only [Grammar.read, inside', ← session]
  rfl

section Close

variable {use : Bytes → Except ε σ} {use' : Bytes → Except ε τ}
  (uses : ∀ token, use' token = (use token).map v.memory)
  (holds : ∀ token memory, use token = .ok memory → v.Holds memory false)
include uses holds

/-- The token in front of the cursor ends, and the byte behind it is taken. -/
theorem agrees_closeBehind (behind : g.move (v.memory p.memory) b = .behind use') :
    v.Agrees g p (p.closeBehind g.tooLong use) := by
  have behind' : g.move (v.sessionAt p).memory b = .behind use' := behind
  rw [Place.closeBehind, Place.close, collect_sessionAt stands]
  cases exceeded : (v.sessionAt p).exceeded with
  | some limit =>
    have refused : g.read (v.sessionAt p) b = .error (g.tooLong limit, 0) := by
      simp only [Grammar.read, behind', Grammar.close, Grammar.collect, exceeded]
    exact ⟨pending, ends_of_refused unread pending refused⟩
  | none =>
    simp only
    cases used : use (v.sessionAt p).openBytes with
    | error fault =>
      have refused : g.read (v.sessionAt p) b = .error (fault, 0) := by
        simp only [Grammar.read, behind', Grammar.close, Grammar.collect, exceeded, uses, used,
          Except.map]
      exact ⟨pending, ends_of_refused unread pending refused⟩
    | ok memory =>
      have inside : 1 ≤ p.cursor.rest.length := by simp [unread]
      refine ⟨(stands.cleared (holds _ _ used)).advance inside, ends_of_read unread pending rfl ?_⟩
      simp only [Grammar.read, behind', Grammar.close, Grammar.collect, exceeded, uses, used,
        Except.map]
      rfl

/-- The byte under the cursor is taken, and the token ends with it. -/
theorem agrees_closeLast (last : g.move (v.memory p.memory) b = .last use')
    (pending' : g.isDone (v.memory memory) = false) :
    v.Agrees g p ({ p.next with memory }.close g.tooLong use) := by
  have last' : g.move (v.sessionAt p).memory b = .last use' := last
  have session := sessionAt_next stands unread
  have next := stands_next stands unread
  have collected := collect_sessionAt next
  rw [session] at collected
  rw [Place.close]
  simp only [collected]
  cases exceeded : ((v.sessionAt p).extend [b]).exceeded with
  | some limit =>
    have refused : g.read (v.sessionAt p) b = .error (g.tooLong limit, 1) := by
      simp only [Grammar.read, last', Grammar.close, Grammar.collect, exceeded]
    exact ⟨pending', ends_of_refused unread pending refused⟩
  | none =>
    simp only
    cases used : use ((v.sessionAt p).extend [b]).openBytes with
    | error fault =>
      have refused : g.read (v.sessionAt p) b = .error (fault, 1) := by
        simp only [Grammar.read, last', Grammar.close, Grammar.collect, exceeded, uses, used,
          Except.map]
      exact ⟨pending', ends_of_refused unread pending refused⟩
    | ok memory =>
      refine ⟨next.cleared (holds _ _ used), ends_of_read unread pending rfl ?_⟩
      simp only [Grammar.read, last', Grammar.close, Grammar.collect, exceeded, uses, used,
        Except.map]
      rfl

end Close

/-- The byte that is expected, which is outside of every token. -/
theorem agrees_expect {byte : UInt8} (closed : p.carry.opened = none) (holds : v.Holds memory false)
    (moves : g.move (v.memory p.memory) b =
      if b = byte then .outside (v.memory memory) else .refuse fault) :
    v.Agrees g p (p.expect (· == byte) memory fault) := by
  rw [Place.expect, Cursor.read?_byte unread]
  cases fits : b == byte with
  | true =>
    have outside := moves.trans (if_pos (beq_iff_eq.mp fits))
    exact agrees_outside stands pending unread closed holds outside
  | false =>
    have refuses := moves.trans (if_neg (beq_eq_false_iff_ne.mp fits))
    exact agrees_fails unread pending refuses rfl rfl

/-- One byte of a class, which is the first of a token. -/
theorem agrees_begin (closed : p.carry.opened = none) (holds : v.Holds memory true)
    (moves : g.move (v.memory p.memory) b =
      if cls b then .first (v.memory memory) else .refuse fault) :
    v.Agrees g p (p.begin cls memory fault) := by
  rw [Place.begin, Step.begin?_eq unread]
  cases fits : cls b with
  | true => exact agrees_first stands pending unread closed holds (moves.trans (if_pos fits))
  | false =>
    have refuses := moves.trans (if_neg (Bool.eq_false_iff.mp fits))
    exact agrees_fails unread pending refuses rfl rfl

end Agrees

end View

/-! ## Runs and calls -/

/-- A call of a machine comes to what a call of a grammar comes to. -/
def View.Answers (v : View σ τ) (g : Grammar τ ε) (call : Parser σ × Except (Failure ε) Bool)
    (call' : Session τ × Except (Failure ε) Bool) : Prop :=
  call.2 = call'.2 ∧
    match call.2 with
    | .ok _ => v.Rests call.1 ∧ v.session call.1 = call'.1
    | .error _ => g.isDone (v.memory call.1.memory) = false ∧ g.isDone call'.1.memory = false

namespace View.Simulates

variable {v : View σ τ} {machine : Machine σ ε} {g : Grammar τ ε} {p : Place σ}
  (simulates : v.Simulates machine g)
include simulates

theorem pending (stands : v.Stands p) (pending : machine.isDone p.memory ≠ true) :
    g.isDone (v.memory p.memory) = false :=
  Bool.eq_false_iff.mpr fun done => pending (simulates.isDone stands.holds done).1

theorem isDone_eq {m : σ} {isOpen : Bool} (holds : v.Holds m isOpen) :
    g.isDone (v.memory m) = machine.isDone m :=
  Bool.eq_iff_iff.mpr ⟨fun done => (simulates.isDone holds done).1, simulates.isDone_memory⟩

/-- A run through a chunk ends where reading does. -/
theorem run (stands : v.Stands p) :
    match machine.run p with
    | .goes last =>
      v.Stands last ∧ (last.cursor.rest = [] ∨ g.isDone (v.memory last.memory) = true) ∧
        v.ends g p = (last.cursor.pos, .ok (v.sessionAt last))
    | .fails fault left =>
      g.isDone (v.memory left.memory) = false ∧
        v.ends g p = (left.cursor.pos, .error fault) := by
  -- Along the steps: none changes where reading ends, and where the steps stop, so does it.
  fun_induction machine.run p with
  | case1 p ended =>
    have ended' := ended.imp_right simulates.isDone_memory
    exact ⟨stands, ended', ends_of_ended ended'⟩
  | case2 p ended next stepped ih =>
    rw [not_or] at ended
    have agrees := simulates.step stands ended.1 (simulates.pending stands ended.2)
    rw [stepped] at agrees
    have further := ih agrees.1
    rwa [← agrees.2] at further
  | case3 p ended fault left stepped =>
    rw [not_or] at ended
    have agrees := simulates.step stands ended.1 (simulates.pending stands ended.2)
    rwa [stepped] at agrees

/-- Where a run has stopped, the session is what is left for the next call, unless the open
token is too long. -/
theorem suspend (stands : v.Stands p)
    (ended : p.cursor.rest = [] ∨ g.isDone (v.memory p.memory) = true) :
    match machine.suspend p with
    | .goes last =>
      v.Rests last.toParser ∧ v.session last.toParser = v.sessionAt p ∧ last.cursor = p.cursor ∧
        (g.isDone (v.memory p.memory) = true ∨ (v.sessionAt p).exceeded = none)
    | .fails fault left =>
      left = p ∧ g.isDone (v.memory p.memory) = false ∧
        (v.sessionAt p).exceeded.map g.tooLong = some fault := by
  by_cases done : machine.isDone p.memory = true
  · have done' := simulates.isDone_memory done
    have closed : p.carry.opened = none := by
      simpa using (simulates.isDone stands.holds done').2
    rw [Machine.suspend, if_pos done]
    refine ⟨⟨stands.holds, stands.held_eq_nil, by simp [closed]⟩, ?_, rfl, .inl done'⟩
    simp [session, sessionAt, Carry.token, closed]
  · have pending := simulates.pending stands done
    have empty := ended.resolve_right (by simp [pending])
    have atEnd : p.cursor.pos = p.cursor.stop := by
      have unread := stands.wellFormed.length_rest
      rw [empty, List.length_nil, Cursor.remaining] at unread
      have := stands.wellFormed.2.1
      omega
    have aside := suspend_sessionAt stands atEnd
    rw [Machine.suspend, if_neg done]
    cases suspended : p.carry.suspend p.cursor.bytes p.cursor.stop with
    | error limit =>
      rw [suspended] at aside
      refine ⟨rfl, pending, ?_⟩
      rw [aside, Option.map_some, simulates.tooLong_eq]
    | ok carry =>
      rw [suspended] at aside
      obtain ⟨fits, rests, same⟩ := aside
      exact ⟨rests, same, rfl, .inr fits⟩

/-- A chunk is read as the grammar reads it. -/
theorem readChunk (stands : v.Stands p) :
    let reading := g.readChunk (v.sessionAt p) p.cursor.rest
    match machine.readChunk p with
    | .goes last =>
      reading.fault = none ∧ v.Rests last.toParser ∧
        reading.session = v.session last.toParser ∧
        p.cursor.pos + reading.taken = last.cursor.pos
    | .fails fault left =>
      reading.fault = some fault ∧ g.isDone (v.memory left.memory) = false ∧
        g.isDone reading.session.memory = false ∧
          p.cursor.pos + reading.taken = left.cursor.pos := by
  intro reading
  have ran := simulates.run stands
  rw [Machine.readChunk]
  cases stopped : machine.run p with
  | fails fault left =>
    rw [stopped] at ran
    obtain ⟨pending, ends⟩ := ran
    cases found : (g.readAll (v.sessionAt p) p.cursor.rest).fault with
    | none => simp [View.ends, found] at ends
    | some fault' =>
      simp only [View.ends, found, Prod.mk.injEq, Except.error.injEq] at ends
      obtain ⟨pos, rfl⟩ := ends
      simp only [reading, Grammar.readChunk_of_fault found]
      exact ⟨found, pending, Grammar.pending_of_fault found, pos⟩
  | goes last =>
    rw [stopped] at ran
    obtain ⟨stands', ended, ends⟩ := ran
    have suspended := simulates.suspend stands' ended
    cases clean : (g.readAll (v.sessionAt p) p.cursor.rest).fault with
    | some fault => simp [View.ends, clean] at ends
    | none =>
      simp only [View.ends, clean, Prod.mk.injEq, Except.ok.injEq] at ends
      obtain ⟨pos, session⟩ := ends
      cases aside : machine.suspend last with
      | goes next =>
        rw [aside] at suspended
        obtain ⟨rests, same, cursor, fits⟩ := suspended
        simp only [reading, aside, Grammar.readChunk_of_fits clean (session ▸ fits), cursor]
        exact ⟨clean, rests, session.trans same.symm, pos⟩
      | fails fault left =>
        rw [aside] at suspended
        obtain ⟨rfl, pending, exceeded⟩ := suspended
        simp only [reading, aside, Grammar.readChunk_of_exceeded clean (session ▸ pending), session]
        exact ⟨exceeded, pending, pending, pos⟩

/-- A call comes to what the grammar comes to, also in a window of a buffer. -/
theorem feedWindow {parser : Parser σ} (rests : v.Rests parser) (buffer : Bytes)
    (start stop : Nat) :
    v.Answers g (machine.feedWindow parser buffer start stop)
      (g.feedWindow (v.session parser) buffer start stop) := by
  by_cases done : machine.isDone parser.memory = true
  · have done' : g.isDone (v.session parser).memory = true := simulates.isDone_memory done
    rw [Machine.feedWindow, if_pos done, Grammar.feedWindow, if_pos done']
    exact ⟨rfl, rests, rfl⟩
  · obtain ⟨stands, session⟩ := stands_within rests buffer start stop
    have pending : g.isDone (v.session parser).memory = false := simulates.pending stands done
    have reads := simulates.readChunk stands
    rw [session] at reads
    rw [Machine.feedWindow, if_neg done, Grammar.feedWindow_of_pending pending]
    simp only at reads ⊢
    generalize g.readChunk _ _ = reading at reads ⊢
    cases outcome : machine.readChunk { parser with cursor := Cursor.within buffer start stop } with
    | goes last =>
      rw [outcome] at reads
      obtain ⟨clean, rests', same, pos⟩ := reads
      have taken : last.cursor.pos - (Cursor.within buffer start stop).pos = reading.taken :=
        Nat.sub_eq_of_eq_add' pos.symm
      have answer : g.isDone reading.session.memory = machine.isDone last.memory := by
        rw [same]
        exact simulates.isDone_eq rests'.holds
      simp only [clean, taken, answer]
      exact ⟨rfl, ⟨rests'.holds, rests'.held_eq_nil, rests'.opened_eq_zero⟩, by rw [same]; rfl⟩
    | fails fault left =>
      rw [outcome] at reads
      obtain ⟨found, pending', open', pos⟩ := reads
      have taken : left.cursor.pos - (Cursor.within buffer start stop).pos = reading.taken :=
        Nat.sub_eq_of_eq_add' pos.symm
      simp only [found, taken]
      exact ⟨rfl, pending', open'⟩

end View.Simulates

end Octets.Stream
