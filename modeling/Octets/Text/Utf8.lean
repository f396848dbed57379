import Octets.Bytes

/-!
# UTF-8

A byte string is read as a sequence of pieces: the characters it encodes, and
between them the maximal runs of bytes that start a character but do not finish
it (a byte that starts no character is such a run by itself). A byte string is
UTF-8 when every piece is a character. Read leniently, each bad run stands for
one replacement character.

## Main definitions

* `Utf8.Piece`, `Utf8.pieces` — the pieces of a byte string
* `Utf8.decode?` — the text that the bytes encode, if they are UTF-8
* `Utf8.decodeLossy` — the text with one `U+FFFD` for each bad run

## Main results

* `Utf8.flatten_pieces` — the pieces are the bytes, cut into consecutive parts
-/

namespace Octets.Utf8

/-- One piece of a byte string: a character with the bytes that encode it, or a
run of bytes that encode none. -/
inductive Piece where
  | char (value : Char) (bytes : Bytes)
  | invalid (bytes : Bytes)
  deriving DecidableEq, Repr

namespace Piece

/-- The bytes of a piece. -/
def bytes : Piece → Bytes
  | char _ bytes => bytes
  | invalid bytes => bytes

/-- The character that a piece stands for. -/
def char? : Piece → Option Char
  | char value _ => some value
  | invalid _ => none

/-- The character that a piece stands for; a bad run stands for `U+FFFD`. -/
def toChar : Piece → Char
  | char value _ => value
  | invalid _ => Char.ofNat 0xFFFD

end Piece

/-- A continuation byte. -/
def isTail (b : UInt8) : Bool := 0x80 ≤ b && b ≤ 0xBF

/-- The bytes that may follow a first byte above `0x7F`. The narrower ranges
leave out overlong forms, surrogates and values above `U+10FFFF`. -/
def mayFollow (first second : UInt8) : Bool :=
  if first < 0xC2 then false
  else if first == 0xE0 then 0xA0 ≤ second && second ≤ 0xBF
  else if first == 0xED then 0x80 ≤ second && second ≤ 0x9F
  else if first == 0xF0 then 0x90 ≤ second && second ≤ 0xBF
  else if first == 0xF4 then 0x80 ≤ second && second ≤ 0x8F
  else if first ≤ 0xF4 then isTail second
  else false

/-- The six bits that a continuation byte carries. -/
def tailBits (b : UInt8) : Nat := b.toNat % 0x40

/-- The character of a two-byte form. -/
def join2 (b c : UInt8) : Char := Char.ofNat (b.toNat % 0x20 * 0x40 + tailBits c)

/-- The character of a three-byte form. -/
def join3 (b c d : UInt8) : Char :=
  Char.ofNat ((b.toNat % 0x10 * 0x40 + tailBits c) * 0x40 + tailBits d)

/-- The character of a four-byte form. -/
def join4 (b c d e : UInt8) : Char :=
  Char.ofNat (((b.toNat % 0x08 * 0x40 + tailBits c) * 0x40 + tailBits d) * 0x40 + tailBits e)

/-- The pieces of a byte string, from the front. -/
def pieces : Bytes → List Piece
  | [] => []
  | b :: rest =>
    if b < 0x80 then .char (Char.ofNat b.toNat) [b] :: pieces rest
    else match rest with
      | [] => [.invalid [b]]
      | c :: rest =>
        if !mayFollow b c then .invalid [b] :: pieces (c :: rest)
        else if b < 0xE0 then .char (join2 b c) [b, c] :: pieces rest
        else match rest with
          | [] => [.invalid [b, c]]
          | d :: rest =>
            if !isTail d then .invalid [b, c] :: pieces (d :: rest)
            else if b < 0xF0 then .char (join3 b c d) [b, c, d] :: pieces rest
            else match rest with
              | [] => [.invalid [b, c, d]]
              | e :: rest =>
                if !isTail e then .invalid [b, c, d] :: pieces (e :: rest)
                else .char (join4 b c d e) [b, c, d, e] :: pieces rest

/-- The text that the bytes encode, if they are UTF-8. -/
def decode? (bytes : Bytes) : Option String :=
  ((pieces bytes).mapM Piece.char?).map String.ofList

/-- The text that the bytes encode, with one `U+FFFD` for each bad run. -/
def decodeLossy (bytes : Bytes) : String :=
  String.ofList ((pieces bytes).map Piece.toChar)

theorem flatten_pieces (bytes : Bytes) : (pieces bytes).flatMap Piece.bytes = bytes := by
  fun_induction pieces bytes <;> simp_all [Piece.bytes]

end Octets.Utf8
