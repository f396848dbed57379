import Octets.Bytes

/-!
# Words

A word is a byte of one class and then bytes of another, the shape that most
tokens have.

## Main definitions

* `Bytes.IsWord` — a byte of one class, then bytes of another
-/

namespace Octets.Bytes

/-- A byte of one class, then bytes of another. -/
def IsWord (first rest : UInt8 → Prop) (bytes : Bytes) : Prop :=
  ∃ b run, bytes = b :: run ∧ first b ∧ ∀ c ∈ run, rest c

end Octets.Bytes
