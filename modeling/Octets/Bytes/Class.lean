import Octets.Bytes

/-!
# Byte classes and named punctuation

The classes that scanners ask for by name, each a decidable set of bytes, and
the punctuation marks with their names. All classes are sets of ASCII bytes but
for the two classes of spaces, which hold the no-break space of Latin-1 too.

## Main definitions

* `ByteClass`, `ByteClass.contains` — the named classes and their members
* `ByteClass.members` — the bytes of a class in ascending order
* `Byte.punctuation` — the named punctuation marks, in the order of their names
-/

namespace Octets

namespace Byte

/-- `0-9` -/
def isDigit (b : UInt8) : Bool := 0x30 ≤ b && b ≤ 0x39

/-- `a-z` -/
def isLower (b : UInt8) : Bool := 0x61 ≤ b && b ≤ 0x7A

/-- `A-Z` -/
def isUpper (b : UInt8) : Bool := 0x41 ≤ b && b ≤ 0x5A

/-- `a-z A-Z` -/
def isAlpha (b : UInt8) : Bool := isLower b || isUpper b

/-- `a-z A-Z 0-9` -/
def isAlphaNumeric (b : UInt8) : Bool := isAlpha b || isDigit b

/-- `0-9 a-f A-F` -/
def isHex (b : UInt8) : Bool := isDigit b || (0x61 ≤ b && b ≤ 0x66) || (0x41 ≤ b && b ≤ 0x46)

/-- `a-z A-Z 0-9 _`, the bytes that may continue an identifier. -/
def isIdentifier (b : UInt8) : Bool := isAlphaNumeric b || b == underline

/-- Space or no-break space. -/
def isSpace (b : UInt8) : Bool := b == space || b == 0xA0

/-- Space, no-break space or tab. -/
def isSpaceTab (b : UInt8) : Bool := isSpace b || b == tab

/-- The marks that a URI may hold beside letters and digits. -/
def uriMarks : Bytes := Bytes.ofText "-._~:/?#[]@!$&'()*+,;=%"

/-- The bytes of a URI: unreserved, reserved and the percent sign. -/
def isUri (b : UInt8) : Bool := isAlphaNumeric b || uriMarks.contains b

/-- The value of a hexadecimal digit. -/
def hexValue (b : UInt8) : UInt8 :=
  if isDigit b then b - 0x30 else if isLower b then b - 0x61 + 10 else b - 0x41 + 10

/-- The named punctuation marks. -/
def punctuation : List (String × UInt8) :=
  [("ampersand", 0x26), ("asterisk", 0x2A), ("at", 0x40), ("backslash", 0x5C),
   ("caret", 0x5E), ("colon", 0x3A), ("comma", 0x2C), ("cr", 0x0D), ("dollar", 0x24),
   ("dot", 0x2E), ("double_quote", 0x22), ("equal", 0x3D), ("exclamation", 0x21),
   ("hash", 0x23), ("lf", 0x0A), ("left_brace", 0x7B), ("left_bracket", 0x5B),
   ("left_paren", 0x28), ("minus", 0x2D), ("percent", 0x25), ("pipe", 0x7C),
   ("plus", 0x2B), ("question", 0x3F), ("right_brace", 0x7D), ("right_bracket", 0x5D),
   ("right_paren", 0x29), ("semicolon", 0x3B), ("single_quote", 0x27), ("slash", 0x2F),
   ("tab", 0x09), ("tilde", 0x7E), ("underline", 0x5F)]

end Byte

/-- The classes of bytes that have a name. -/
inductive ByteClass where
  | digit
  | hex
  | alpha
  | alphaNumeric
  | alphaUnderline
  | alphaUnderlineDigit
  | alphaUnderlineDigitMinus
  | lower
  | upper
  | space
  | spaceTab
  | uri
  deriving DecidableEq, Repr

namespace ByteClass

/-- Membership of a byte in a class. -/
def contains : ByteClass → UInt8 → Bool
  | digit => Byte.isDigit
  | hex => Byte.isHex
  | alpha => Byte.isAlpha
  | alphaNumeric => Byte.isAlphaNumeric
  | alphaUnderline => fun b => Byte.isAlpha b || b == Byte.underline
  | alphaUnderlineDigit => Byte.isIdentifier
  | alphaUnderlineDigitMinus => fun b => Byte.isIdentifier b || b == Byte.minus
  | lower => Byte.isLower
  | upper => Byte.isUpper
  | space => Byte.isSpace
  | spaceTab => Byte.isSpaceTab
  | uri => Byte.isUri

/-- The bytes of a class in ascending order. -/
def members (cls : ByteClass) : Bytes := Byte.all.filter cls.contains

theorem mem_members {cls : ByteClass} {b : UInt8} : b ∈ cls.members ↔ cls.contains b = true := by
  simp [members, Byte.mem_all]

end ByteClass

end Octets
