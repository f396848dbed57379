import Octets.Bytes

/-!
# Grammars read from a stream

A stream arrives in chunks, and a token may be cut anywhere. A grammar for a
stream is therefore a machine that is given one byte at a time and says how the
byte stands to the open token: outside of every token, as the first byte of one,
as one more byte of it, as its last byte, or behind it. The machine itself keeps
no token. The session that runs it gathers the bytes, holds them over from one
chunk to the next, and hands them to the machine when the token is closed.

A token longer than the session's limit is refused when it is closed, and at the
latest at the end of the chunk in which it has grown too long.

A token that is open when a call begins goes on at the front of the buffer of
that call, even if the window of the call starts further on; the bytes in front
of the window then belong to the token.

## Main definitions

* `Stream.Move`, `Stream.Grammar` — how a byte stands to the open token, and a
  machine that says so
* `Stream.Session` — the memory of the machine, the open token, the bytes
  consumed
* `Grammar.read`, `Grammar.readAll` — one byte, and bytes up to the first fault
* `Grammar.feed`, `Grammar.feedWindow` — one more chunk of the stream

## Main results

* `Grammar.readAll_append` — reading goes on where it stopped
-/

namespace Octets.Stream

/-- How a byte stands to the open token, and what follows. -/
inductive Move (σ ε : Type) where
  /-- The byte belongs to no token. -/
  | outside (next : σ)
  /-- The byte is the first of a token. -/
  | first (next : σ)
  /-- The byte is one more of the open token. -/
  | inside (next : σ)
  /-- The open token has ended in front of the byte. -/
  | behind (use : Bytes → Except ε σ)
  /-- The byte is the last of the open token. -/
  | last (use : Bytes → Except ε σ)
  /-- The byte does not fit. -/
  | refuse (fault : ε)

/-- A machine that reads a stream byte by byte. -/
structure Grammar (σ ε : Type) where
  /-- Whether the stream has been read to its end. -/
  isDone : σ → Bool
  move : σ → UInt8 → Move σ ε
  /-- The fault of a token longer than the given limit. -/
  tooLong : Nat → ε

/-- A fault, and the offset in the stream at which it was found. -/
structure Failure (ε : Type) where
  fault : ε
  offset : Nat
  deriving DecidableEq, Repr

/-- How streams are read. -/
structure Options where
  /-- The room that is set aside for a token held over to the next chunk. More is
  taken as needed, so the number changes nothing that is read. -/
  carryCapacity : Nat := 1024
  /-- The length of the longest token that is accepted. -/
  maxTokenLength : Option Nat := none
  deriving DecidableEq, Repr

/-- A stream that is being read: the memory of the machine, the bytes of the open
token if there is one, the greatest length of a token, and how many bytes of the
stream have been consumed. -/
structure Session (σ : Type) where
  memory : σ
  token : Option Bytes
  limit : Option Nat
  consumed : Nat
  deriving DecidableEq, Repr

namespace Session

variable {σ : Type}

/-- A session before the first byte of its stream. -/
def start (memory : σ) (options : Options) : Session σ :=
  ⟨memory, none, options.maxTokenLength, 0⟩

/-- The limit, if the open token exceeds it. -/
def exceeded (s : Session σ) : Option Nat :=
  match s.token, s.limit with
  | some token, some limit => if limit < token.length then some limit else none
  | _, _ => none

/-- The bytes of the open token. -/
def openBytes (s : Session σ) : Bytes := s.token.getD []

/-- The session with the open token, if there is one, extended by some bytes. -/
def extend (s : Session σ) (bytes : Bytes) : Session σ :=
  { s with token := s.token.map (· ++ bytes) }

end Session

/-- What came of reading some bytes: the session, how many of the bytes were
consumed, and the fault that stopped it. -/
structure Reading (σ ε : Type) where
  session : Session σ
  taken : Nat
  fault : Option ε

namespace Grammar

variable {σ ε : Type}

/-- The bytes of the open token, unless it is too long. -/
def collect (g : Grammar σ ε) (s : Session σ) : Except ε Bytes :=
  match s.exceeded with
  | some limit => .error (g.tooLong limit)
  | none => .ok s.openBytes

/-- Closes the open token and hands its bytes to the machine. -/
def close (g : Grammar σ ε) (s : Session σ) (use : Bytes → Except ε σ) :
    Except ε (Session σ) :=
  match g.collect s with
  | .error fault => .error fault
  | .ok token =>
    match use token with
    | .error fault => .error fault
    | .ok next => .ok { s with memory := next, token := none }

/-- Reads one byte. A fault tells whether the byte was consumed with it, which
happens where the byte is the last of a token that is refused. -/
def read (g : Grammar σ ε) (s : Session σ) (b : UInt8) : Except (ε × Nat) (Session σ) :=
  match g.move s.memory b with
  | .outside next => .ok { s with memory := next }
  | .first next => .ok { s with memory := next, token := some [b] }
  | .inside next => .ok { s.extend [b] with memory := next }
  | .behind use =>
    match g.close s use with
    | .error fault => .error (fault, 0)
    | .ok next => .ok next
  | .last use =>
    match g.close (s.extend [b]) use with
    | .error fault => .error (fault, 1)
    | .ok next => .ok next
  | .refuse fault => .error (fault, 0)

/-- Reads bytes up to the first fault or the end of what the grammar describes.
The session stays as it was before the byte that was refused. -/
def readAll (g : Grammar σ ε) (s : Session σ) : Bytes → Reading σ ε
  | [] => ⟨s, 0, none⟩
  | b :: rest =>
    if g.isDone s.memory then ⟨s, 0, none⟩
    else
      match g.read s b with
      | .error (fault, taken) => ⟨s, taken, some fault⟩
      | .ok next =>
        let reading := readAll g next rest
        { reading with taken := reading.taken + 1 }

/-- Reads a chunk. At its end an open token must not have grown too long. -/
def readChunk (g : Grammar σ ε) (s : Session σ) (chunk : Bytes) : Reading σ ε :=
  let reading := g.readAll s chunk
  match reading.fault with
  | some _ => reading
  | none =>
    if g.isDone reading.session.memory then reading
    else { reading with fault := reading.session.exceeded.map g.tooLong }

/-- Feeds a window of a buffer as the next chunk of the stream; the answer says
whether the stream has been read to its end. A failed call consumes nothing. -/
def feedWindow (g : Grammar σ ε) (s : Session σ) (buffer : Bytes) (start stop : Nat) :
    Session σ × Except (Failure ε) Bool :=
  if g.isDone s.memory then (s, .ok true)
  else
    let stop := min stop buffer.length
    let start := min start stop
    let reading := g.readChunk (s.extend (buffer.take start)) (buffer.slice start stop)
    let offset := s.consumed + reading.taken
    match reading.fault with
    | some fault => (reading.session, .error ⟨fault, offset⟩)
    | none =>
      ({ reading.session with consumed := offset }, .ok (g.isDone reading.session.memory))

/-- Feeds the next chunk of the stream. -/
def feed (g : Grammar σ ε) (s : Session σ) (chunk : Bytes) :
    Session σ × Except (Failure ε) Bool :=
  g.feedWindow s chunk 0 chunk.length

/-- Feeds several chunks, up to the first failure. -/
def feedAll (g : Grammar σ ε) (s : Session σ) :
    List Bytes → Session σ × Except (Failure ε) Bool
  | [] => (s, .ok (g.isDone s.memory))
  | chunk :: chunks =>
    match g.feed s chunk with
    | (next, .ok _) => feedAll g next chunks
    | (next, .error failure) => (next, .error failure)

/-- Reading goes on where it stopped. -/
theorem readAll_append (g : Grammar σ ε) (s : Session σ) (left right : Bytes) :
    g.readAll s (left ++ right) =
      let first := g.readAll s left
      match first.fault with
      | some _ => first
      | none =>
        let second := g.readAll first.session right
        { second with taken := first.taken + second.taken } := by
  induction left generalizing s with
  | nil => simp [readAll]
  | cons b rest ih =>
    simp only [List.cons_append, readAll]
    by_cases done : g.isDone s.memory
    · simp only [done, if_true]
      cases right <;> simp [readAll, done]
    · simp only [done, Bool.false_eq_true, if_false]
      cases g.read s b with
      | error refusal => rfl
      | ok next =>
        simp only [ih next]
        cases stopped : (g.readAll next rest).fault with
        | some _ => simp [stopped]
        | none => simp [Nat.add_right_comm]

end Grammar

end Octets.Stream
