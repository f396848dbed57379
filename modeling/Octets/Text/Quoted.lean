import Octets.Text.Utf8

/-!
# Quoted bytes

The readable form of a byte string: its UTF-8 pieces between double quotes, with
every byte that would not print as itself written as an escape. A byte that is
part of no character is written by its two hexadecimal digits, so that the form
tells it apart from the character of the same number. A single byte is quoted as
the Latin-1 character of that number, between single quotes.

## Main definitions

* `Quoted.ofBytes` — a byte string between double quotes
* `Quoted.ofByte` — one byte as a character between single quotes
* `Quoted.list` — readable forms in square brackets
-/

namespace Octets.Quoted

/-- A hexadecimal digit, small letters above nine. -/
def hexDigit (n : Nat) : Char :=
  if n < 10 then Char.ofNat (0x30 + n) else Char.ofNat (0x57 + n)

/-- The two hexadecimal digits of a byte. -/
def hexByte (b : UInt8) : String :=
  String.ofList [hexDigit (b.toNat / 16), hexDigit (b.toNat % 16)]

/-- The hexadecimal escape of a byte. -/
def hexEscape (b : UInt8) : String := "\\x" ++ hexByte b

/-- The escape of a character by its number, for numbers below 256. -/
def numberEscape (b : UInt8) : String :=
  "\\u\x7b" ++ (if b < 0x10 then String.ofList [hexDigit b.toNat] else hexByte b) ++ "\x7d"

/-- The Latin-1 characters above ASCII that do not print: the control characters,
the no-break space and the soft hyphen. -/
def isUnprintedLatin (n : Nat) : Bool := (0x80 ≤ n && n ≤ 0xA0) || n == 0xAD

/-- An ASCII character inside double quotes. -/
def asciiEscape (b : UInt8) : String :=
  if b = Byte.nul then "\\0"
  else if b = Byte.tab then "\\t"
  else if b = Byte.lf then "\\n"
  else if b = Byte.cr then "\\r"
  else if b = Byte.singleQuote then "\\'"
  else if b = Byte.doubleQuote then "\\\""
  else if b = Byte.backslash then "\\\\"
  else if b < 0x20 ∨ b = 0x7F then hexEscape b
  else String.singleton (Char.ofNat b.toNat)

/-- One piece of a byte string inside double quotes. -/
def piece : Utf8.Piece → String
  | .char value _ =>
    if value.toNat < 0x80 then asciiEscape value.toNat.toUInt8
    else if isUnprintedLatin value.toNat then numberEscape value.toNat.toUInt8
    else String.singleton value
  | .invalid bytes => String.join (bytes.map hexEscape)

/-- A byte string between double quotes. -/
def ofBytes (bytes : Bytes) : String :=
  "\"" ++ String.join ((Utf8.pieces bytes).map piece) ++ "\""

/-- A Latin-1 character inside single quotes. -/
def latinEscape (b : UInt8) : String :=
  if b = Byte.nul then "\\0"
  else if b = Byte.tab then "\\t"
  else if b = Byte.lf then "\\n"
  else if b = Byte.cr then "\\r"
  else if b = Byte.singleQuote then "\\'"
  else if b = Byte.backslash then "\\\\"
  else if b < 0x20 ∨ b = 0x7F ∨ isUnprintedLatin b.toNat then numberEscape b
  else String.singleton (Char.ofNat b.toNat)

/-- One byte between single quotes, as the Latin-1 character of that number. -/
def ofByte (b : UInt8) : String := "'" ++ latinEscape b ++ "'"

/-- Readable forms, separated by commas, in square brackets. -/
def list (items : List String) : String := "[" ++ String.intercalate ", " items ++ "]"

end Octets.Quoted
