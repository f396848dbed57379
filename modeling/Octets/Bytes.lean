/-!
# Byte strings

The carrier of the whole library: a byte string is a list of bytes. Text enters
as its UTF-8 form (`Bytes.ofText`), so the ASCII literals of a grammar can be
written as strings. The delimiters that several grammars share are named once,
in the namespace `Byte`.

## Main definitions

* `Bytes`, `Bytes.ofText` — byte strings and the bytes of a text
* `Bytes.lower` — every ASCII capital replaced by its small letter
* `Bytes.trim` — the bytes between leading and trailing ASCII whitespace
* `Bytes.lineAt` — the number of the line on which a position lies
* `Byte.all` — the 256 bytes in ascending order
-/

namespace Octets

/-- A byte string. -/
abbrev Bytes := List UInt8

namespace Byte

/-- The byte of all zero bits. -/
abbrev nul : UInt8 := 0x00

/-- Horizontal tab. -/
abbrev tab : UInt8 := 0x09

/-- Line feed, the end of a line. -/
abbrev lf : UInt8 := 0x0A

/-- Carriage return. -/
abbrev cr : UInt8 := 0x0D

/-- The space. -/
abbrev space : UInt8 := 0x20

/-- Exclamation mark. -/
abbrev exclamation : UInt8 := 0x21

/-- Double quote. -/
abbrev doubleQuote : UInt8 := 0x22

/-- Percent sign. -/
abbrev percent : UInt8 := 0x25

/-- Ampersand. -/
abbrev ampersand : UInt8 := 0x26

/-- Single quote. -/
abbrev singleQuote : UInt8 := 0x27

/-- Asterisk. -/
abbrev asterisk : UInt8 := 0x2A

/-- Plus sign. -/
abbrev plus : UInt8 := 0x2B

/-- Comma. -/
abbrev comma : UInt8 := 0x2C

/-- Minus sign. -/
abbrev minus : UInt8 := 0x2D

/-- Slash. -/
abbrev slash : UInt8 := 0x2F

/-- Colon. -/
abbrev colon : UInt8 := 0x3A

/-- Semicolon. -/
abbrev semicolon : UInt8 := 0x3B

/-- Equals sign. -/
abbrev equal : UInt8 := 0x3D

/-- Question mark. -/
abbrev question : UInt8 := 0x3F

/-- The capital letter H. -/
abbrev capitalH : UInt8 := 0x48

/-- Left square bracket. -/
abbrev leftBracket : UInt8 := 0x5B

/-- Backslash. -/
abbrev backslash : UInt8 := 0x5C

/-- Right square bracket. -/
abbrev rightBracket : UInt8 := 0x5D

/-- Caret. -/
abbrev caret : UInt8 := 0x5E

/-- Underline. -/
abbrev underline : UInt8 := 0x5F

/-- Left brace. -/
abbrev leftBrace : UInt8 := 0x7B

/-- Right brace. -/
abbrev rightBrace : UInt8 := 0x7D

/-- Every byte, in ascending order. -/
def all : Bytes := (List.range 256).map UInt8.ofNat

theorem mem_all (b : UInt8) : b ∈ all :=
  List.mem_map.mpr ⟨b.toNat, List.mem_range.mpr b.toNat_lt, UInt8.ofNat_toNat⟩

/-- The small letter of an ASCII capital; any other byte stays. -/
def lower (b : UInt8) : UInt8 :=
  if 0x41 ≤ b ∧ b ≤ 0x5A then b + 0x20 else b

/-- Space, tab, line feed, form feed and carriage return. -/
def isBlank (b : UInt8) : Bool :=
  b == space || b == tab || b == lf || b == 0x0C || b == cr

end Byte

namespace Bytes

/-- The UTF-8 form of a text. -/
def ofText (text : String) : Bytes := text.toByteArray.data.toList

/-- Every ASCII capital replaced by its small letter. -/
def lower (bytes : Bytes) : Bytes := bytes.map Byte.lower

/-- The bytes without leading ASCII whitespace. -/
def trimLeft (bytes : Bytes) : Bytes := bytes.dropWhile Byte.isBlank

/-- The bytes between leading and trailing ASCII whitespace. -/
def trim (bytes : Bytes) : Bytes := (trimLeft (trimLeft bytes).reverse).reverse

/-- The bytes at the positions from `start` up to `stop`. -/
def slice (bytes : Bytes) (start stop : Nat) : Bytes := (bytes.take stop).drop start

/-- The number of the line on which position `pos` lies; the first line is 1. -/
def lineAt (bytes : Bytes) (pos : Nat) : Nat := (bytes.take pos).count Byte.lf + 1

theorem length_slice (bytes : Bytes) (start stop : Nat) :
    (bytes.slice start stop).length = min stop bytes.length - start := by
  simp [slice]

theorem slice_all (bytes : Bytes) : bytes.slice 0 bytes.length = bytes := by
  simp [slice]

end Bytes

end Octets
