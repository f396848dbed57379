import Octets.Cursor

/-!
# Stream buffers

A stream buffer holds the bytes of a stream that a reader is not done with: those
of its open token and those it has not read. Every chunk that arrives is put
behind them, after the bytes in front of the open token have been dropped, so a
token that was cut by a chunk boundary lies in one piece under the next cursor.

## Main definitions

* `Stream.Buffer`, `Buffer.empty`
* `Buffer.append` — one more chunk, `Buffer.cursor` — a cursor where reading left
  off, `Buffer.commit` — where reading has left off
* `Buffer.pending` — the bytes from the open token on

## Main results

* `Buffer.pending_append` — a chunk only comes behind the bytes that are pending
-/

namespace Octets.Stream

/-- The retained bytes of a stream, with the start of the open token and the
position up to which they have been read. -/
structure Buffer where
  bytes : Bytes
  start : Nat
  pos : Nat
  deriving DecidableEq, Repr

namespace Buffer

/-- The buffer that retains nothing. -/
def empty : Buffer := ⟨[], 0, 0⟩

/-- Drops the bytes in front of the open token and appends a chunk. -/
def append (buffer : Buffer) (chunk : Bytes) : Buffer :=
  ⟨buffer.bytes.drop buffer.start ++ chunk, 0, buffer.pos - buffer.start⟩

/-- A cursor over the retained bytes, where reading left off. -/
def cursor (buffer : Buffer) : Cursor :=
  { (Cursor.ofBytes buffer.bytes).seek buffer.pos with start := buffer.start }

/-- Records where reading left off: the start of the open token and the
position, both drawn into the retained bytes. -/
def commit (buffer : Buffer) (start pos : Nat) : Buffer :=
  let start := min start buffer.bytes.length
  ⟨buffer.bytes, start, max start (min pos buffer.bytes.length)⟩

/-- The bytes of the open token and those behind it. -/
def pending (buffer : Buffer) : Bytes := buffer.bytes.drop buffer.start

theorem pending_append (buffer : Buffer) (chunk : Bytes) :
    (buffer.append chunk).pending = buffer.pending ++ chunk := by
  simp [append, pending]

end Buffer

end Octets.Stream
