import Octets.Cursor

/-!
# Form encoding

The encoding of the fields of a form: a plus sign stands for a space, a percent
sign with two hexadecimal digits for the byte of that number, and every other
byte for itself.

An encoded byte string is read in stretches. A stretch of bytes that stand for
themselves is taken as one token; behind a plus sign or an escape the next token
begins.

## Main definitions

* `Form.decode` — the bytes that an encoded byte string stands for, unless a
  percent sign is not followed by two hexadecimal digits
-/

namespace Octets.Form

/-- The bytes that do not stand for themselves. -/
def isMark (b : UInt8) : Bool := b == Byte.plus || b == Byte.percent

/-- The byte written by two hexadecimal digits. -/
def hexPair (high low : UInt8) : UInt8 := Byte.hexValue high * 16 + Byte.hexValue low

/-- The hexadecimal digit that comes next, taken. -/
def digit? (c : Cursor) : Option (UInt8 × Cursor) :=
  match c.next with
  | some (b, after) => if Byte.isHex b then some (b, after) else none
  | none => none

theorem next_of_digit? {c after : Cursor} {b : UInt8} (read : digit? c = some (b, after)) :
    c.next = some (b, after) := by
  unfold digit? at read
  split at read
  · split at read <;> cases read
    assumption
  · cases read

/-- The bytes decoded so far, and what the unread ones stand for. -/
def decodeFrom (c : Cursor) (out : Bytes) : Option Bytes :=
  if c.atEnd then some out
  else
    match _plain : c.read? (Scan.upTo isMark) with
    | some after => decodeFrom after.beginToken (out ++ after.token)
    | none =>
      match _plus : c.read? (Scan.byte (· == Byte.plus)) with
      | some after => decodeFrom after.beginToken (out ++ [Byte.space])
      | none =>
        match _high : digit? (c.accept (Scan.byte (· == Byte.percent))).2 with
        | none => none
        | some (high, between) =>
          match _low : digit? between with
          | none => none
          | some (low, after) => decodeFrom after.beginToken (out ++ [hexPair high low])
termination_by c.rest.length
decreasing_by
  · have shorter := Cursor.length_rest_of_read?_run _plain
    exact shorter
  · have shorter := Cursor.length_rest_of_read?_byte _plus
    exact shorter
  · have high := Cursor.length_rest_of_next (next_of_digit? _high)
    have low := Cursor.length_rest_of_next (next_of_digit? _low)
    have behind := Cursor.length_rest_accept c (Scan.byte (· == Byte.percent))
    exact Nat.lt_of_lt_of_le (Nat.lt_trans low high) behind

/-- The bytes that an encoded byte string stands for. -/
def decode (bytes : Bytes) : Option Bytes := decodeFrom (.ofBytes bytes) []

@[simp] theorem decode_nil : decode [] = some [] := by
  rw [decode, decodeFrom]
  rfl

end Octets.Form
