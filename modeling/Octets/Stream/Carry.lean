import Octets.Stream.Grammar

/-!
# Tokens carried from chunk to chunk

A machine that is given a stream chunk by chunk records where the open token begins in
the chunk at hand. If the chunk ends first, the part of the token that lies in it is put
aside, and the token goes on at the front of the next chunk. When the token ends, it is
given out as one byte string, the part put aside in front.

## Main definitions

* `Stream.Carry` — the part put aside, and where the open token goes on
* `Carry.begin`, `Carry.collect`, `Carry.suspend` — a token begins, a token ends, a chunk
  ends
* `Carry.token` — the bytes of the open token up to a position
-/

namespace Octets.Stream

/-- What is known of the open token: the bytes of it that lay in earlier chunks, where it
begins or goes on in the chunk at hand, and the greatest length of a token. -/
structure Carry where
  held : Bytes
  opened : Option Nat
  limit : Option Nat
  deriving DecidableEq, Repr

namespace Carry

/-- Nothing is carried. -/
def start (options : Options) : Carry := ⟨[], none, options.maxTokenLength⟩

/-- A token begins at an index of the chunk. -/
def begin (c : Carry) (index : Nat) : Carry := { c with opened := some index }

/-- The length of the open token if it ended at a position. -/
def length (c : Carry) (stop : Nat) : Nat :=
  c.held.length + (c.opened.map (stop - ·)).getD 0

/-- The limit, if the open token exceeds it at a position. -/
def exceeded (c : Carry) (stop : Nat) : Option Nat :=
  match c.limit with
  | some limit => if limit < c.length stop then some limit else none
  | none => none

/-- Ends the open token at a position and gives out its bytes. Fails with the limit if the
token is too long. -/
def collect (c : Carry) (chunk : Bytes) (stop : Nat) : Except Nat (Bytes × Carry) :=
  match c.exceeded stop with
  | some limit => .error limit
  | none =>
    let start := min (c.opened.getD stop) stop
    .ok (c.held ++ chunk.slice start stop, { c with held := [], opened := none })

/-- Puts the open token aside where a chunk ends. It goes on at the front of the next
one. -/
def suspend (c : Carry) (chunk : Bytes) (stop : Nat) : Except Nat Carry :=
  match c.opened with
  | none => .ok c
  | some start =>
    match c.exceeded stop with
    | some limit => .error limit
    | none =>
      .ok { c with held := c.held ++ chunk.slice (min start stop) stop, opened := some 0 }

/-- The bytes of the open token up to a position. -/
def token (c : Carry) (chunk : Bytes) (pos : Nat) : Option Bytes :=
  c.opened.map fun start => c.held ++ chunk.slice start pos

end Carry

end Octets.Stream
