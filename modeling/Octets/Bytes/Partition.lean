import Octets.Bytes

/-!
# Partitions of a payload

Two ways of cutting a byte string into consecutive non-empty chunks: into a
number of roughly equal parts, and at cut points read off a list of arbitrary
numbers. Every partition of a payload arises in the second way.

## Main definitions

* `Bytes.chunksOf` — chunks of one size, the last of which may be shorter
* `Bytes.evenChunks` — at most the given number of chunks of one size
* `Bytes.chunksBySizes` — one chunk for each number, then the rest
-/

namespace Octets

namespace Bytes

/-- Chunks of `size` bytes; the last may be shorter. A size of zero cuts like a
size of one. -/
def chunksOf (size : Nat) : Bytes → List Bytes
  | [] => []
  | b :: rest => (b :: rest.take (size - 1)) :: chunksOf size (rest.drop (size - 1))
termination_by bytes => bytes.length
decreasing_by simp only [List.length_drop, List.length_cons]; omega

/-- At most `parts` chunks of one size, just large enough to hold the payload.
No payload can be cut into zero parts. -/
def evenChunks (payload : Bytes) (parts : Nat) : Option (List Bytes) :=
  if parts = 0 then none
  else some (chunksOf ((payload.length + parts - 1) / parts) payload)

/-- One chunk for each number, as long as bytes are left: the number is reduced
modulo the bytes left, plus one, so that no chunk is empty. What remains after
the last number is the last chunk. -/
def chunksBySizes : List Nat → Bytes → List Bytes
  | _, [] => []
  | [], b :: rest => [b :: rest]
  | size :: sizes, b :: rest =>
    let cut := size % (rest.length + 1)
    (b :: rest.take cut) :: chunksBySizes sizes (rest.drop cut)

theorem flatten_chunksOf (size : Nat) (payload : Bytes) :
    (chunksOf size payload).flatten = payload := by
  induction payload using chunksOf.induct size with
  | case1 => simp [chunksOf]
  | case2 b rest ih => simp [chunksOf, ih]

theorem flatten_chunksBySizes (sizes : List Nat) (payload : Bytes) :
    (chunksBySizes sizes payload).flatten = payload := by
  induction sizes generalizing payload with
  | nil => cases payload <;> simp [chunksBySizes]
  | cons size sizes ih => cases payload <;> simp [chunksBySizes, ih]

end Bytes

end Octets
