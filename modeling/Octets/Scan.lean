import Octets.Bytes.Class

/-!
# Scans

A scan looks at the unread bytes and says how many of them it takes, or that it
does not apply. It sees nothing else: neither what was read before, nor what
lies behind the end of the unread bytes. A run must not be empty; only a literal
that is itself empty, and the way up to an occurrence right at the front, take
zero bytes.

An *escaped* byte is one that stands directly behind an odd number of
consecutive backslashes.

## Main definitions

* `Scan` — how many of the unread bytes are taken, if the scan applies
* `Scan.byte`, `Scan.run`, `Scan.upTo` — one byte of a class, a maximal run of a
  class, the bytes before the first byte of a class
* `Scan.literal`, `Scan.either`, `Scan.keyword` — fixed bytes
* `Scan.before`, `Scan.through` — up to an occurrence of a literal, without and
  with it
* `Scan.upToUnescaped`, `Scan.beforeUnescaped`, `Scan.quoted`,
  `Scan.quotedEscaped` — the scans that know about backslashes and quotes
* `Scan.suffix?` — the first of several endings that the unread bytes have
-/

namespace Octets

/-- How many of the unread bytes are taken; `none` when the scan does not apply. -/
abbrev Scan := Bytes → Option Nat

namespace Scan

/-- A length, unless it is zero. -/
def nonzero (n : Nat) : Option Nat := if n = 0 then none else some n

/-- One byte of a class. -/
def byte (cls : UInt8 → Bool) : Scan
  | [] => none
  | b :: _ => if cls b then some 1 else none

/-- The maximal run of bytes of a class. -/
def run (cls : UInt8 → Bool) : Scan := fun bytes => nonzero (bytes.takeWhile cls).length

/-- The bytes before the first byte of a class, or all of them. -/
def upTo (cls : UInt8 → Bool) : Scan := run fun b => !cls b

/-- How many bytes stand before the first byte of a class that no backslash
escapes. -/
def unescapedLength (cls : UInt8 → Bool) : Bytes → Nat
  | [] => 0
  | [b] => if b ≠ Byte.backslash ∧ cls b = true then 0 else 1
  | b :: c :: rest =>
    if b = Byte.backslash then unescapedLength cls rest + 2
    else if cls b = true then 0
    else unescapedLength cls (c :: rest) + 1

/-- The bytes before the first unescaped byte of a class, or all of them. A
backslash is never itself taken for a byte of the class. -/
def upToUnescaped (cls : UInt8 → Bool) : Scan := fun bytes => nonzero (unescapedLength cls bytes)

/-- A literal. -/
def literal (lit : Bytes) : Scan := fun bytes =>
  if lit.isPrefixOf bytes then some lit.length else none

/-- Whether the bytes begin with one byte of each pair. -/
def beginsWithEither : List (UInt8 × UInt8) → Bytes → Bool
  | [], _ => true
  | _ :: _, [] => false
  | (x, y) :: pairs, b :: rest => (b == x || b == y) && beginsWithEither pairs rest

/-- A literal of which each byte has two spellings, such as two cases. -/
def either (a b : Bytes) : Scan := fun bytes =>
  let pairs := a.zip b
  if beginsWithEither pairs bytes then some pairs.length else none

/-- Whether the bytes begin with one that may continue an identifier. -/
def beginsWithIdentifier (bytes : Bytes) : Bool := bytes.head?.any Byte.isIdentifier

/-- A literal that no byte of an identifier follows. -/
def keyword (lit : Bytes) : Scan := fun bytes =>
  if lit.isPrefixOf bytes && !beginsWithIdentifier (bytes.drop lit.length)
  then some lit.length else none

/-- The bytes before the first occurrence of a literal. -/
def before (lit : Bytes) : Scan
  | [] => if lit.isEmpty then some 0 else none
  | b :: rest =>
    if lit.isPrefixOf (b :: rest) then some 0 else (before lit rest).map (· + 1)

/-- The bytes up to and including the first occurrence of a literal. -/
def through (lit : Bytes) : Scan := fun bytes => (before lit bytes).map (· + lit.length)

/-- Where a literal first stands without being escaped, given whether the first
byte is escaped. -/
def unescapedIndex (lit : Bytes) : Bool → Bytes → Option Nat
  | _, [] => none
  | escaped, b :: rest =>
    if !escaped && lit.isPrefixOf (b :: rest) then some 0
    else (unescapedIndex lit (b == Byte.backslash && !escaped) rest).map (· + 1)

/-- The bytes before the first unescaped occurrence of a literal. -/
def beforeUnescaped (lit : Bytes) : Scan := fun bytes =>
  (unescapedIndex lit false bytes).bind nonzero

/-- A run with the same quote at both ends, quotes included. -/
def quoted (quote : UInt8) : Scan
  | [] => none
  | b :: rest => if b = quote then (rest.idxOf? quote).map (· + 2) else none

/-- Where the first unescaped quote stands. -/
def closingIndex (quote : UInt8) : Bytes → Option Nat
  | [] => none
  | [b] => if b ≠ Byte.backslash ∧ b = quote then some 0 else none
  | b :: c :: rest =>
    if b = Byte.backslash then (closingIndex quote rest).map (· + 2)
    else if b = quote then some 0
    else (closingIndex quote (c :: rest)).map (· + 1)

/-- A run with the same quote at both ends, in which a backslash escapes the byte
behind it; the quotes are included. -/
def quotedEscaped (quote : UInt8) : Scan
  | [] => none
  | b :: rest => if b = quote then (closingIndex quote rest).map (· + 2) else none

/-- The first of several endings that the unread bytes have, by its index. -/
def suffix? (endings : List Bytes) (bytes : Bytes) : Option Nat :=
  endings.findIdx? fun ending => ending.isSuffixOf bytes

theorem nonzero_eq_some {n m : Nat} : nonzero n = some m ↔ n = m ∧ 0 < m := by
  unfold nonzero
  split <;> simp <;> omega

@[simp] theorem nonzero_zero : nonzero 0 = none := rfl

@[simp] theorem nonzero_succ (n : Nat) : nonzero (n + 1) = some (n + 1) := rfl

theorem run_eq_some {cls : UInt8 → Bool} {bytes : Bytes} {n : Nat} :
    run cls bytes = some n ↔ (bytes.takeWhile cls).length = n ∧ 0 < n :=
  nonzero_eq_some

theorem literal_eq_some {lit bytes : Bytes} {n : Nat} :
    literal lit bytes = some n ↔ lit <+: bytes ∧ lit.length = n := by
  simp [literal]

end Scan

end Octets
