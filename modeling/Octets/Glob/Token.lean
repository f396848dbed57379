import Octets.Lexer

/-!
# Glob tokens

The tokens of a glob pattern and the tokenizer that finds them. Outside groups,
a star or two stars stand for any run of bytes, a question mark for any byte,
and a run of other bytes for itself, where a backslash takes the special meaning
from the byte behind it. A set in square brackets has members and ranges of
members and may be negated; a range joins two small letters, two capitals or two
digits in ascending order. An alternation in braces lists names.

A pattern has no errors at this level: what fits nowhere becomes a last token of
plain text.

## Main definitions

* `Glob.Token`, `Glob.State` — the kinds of tokens, and where in a pattern the
  tokenizer is
* `Glob.tokenizer` — the tokenizer of patterns
-/

namespace Octets.Glob

/-- The kinds of tokens. -/
inductive Token where
  /-- A run that stands for itself; it may hold backslashes. -/
  | name
  | separator
  | anyRun
  | anyByte
  | setOpen
  | setNegation
  /-- One member of a set, possibly behind a backslash. -/
  | setChar
  /-- The dash of a range. -/
  | setRange
  | setClose
  | alternationOpen
  | alternationName
  | alternationComma
  | alternationClose
  | newline
  /-- The rest of a line that fits nowhere. -/
  | text
  deriving DecidableEq, Repr

/-- Where in a pattern the tokenizer is. -/
inductive State where
  | body
  | setFirst
  | setNegated
  | set
  | setDash
  | setRangeEnd
  | alternationFirst
  | alternationName
  | alternationSeparator
  | text
  deriving DecidableEq, Repr

/-- The name of a token kind. -/
def Token.label : Token → String
  | name => "Name"
  | separator => "Separator"
  | anyRun => "AnyRun"
  | anyByte => "AnyByte"
  | setOpen => "SetOpen"
  | setNegation => "SetNegation"
  | setChar => "SetChar"
  | setRange => "SetRange"
  | setClose => "SetClose"
  | alternationOpen => "AlternationOpen"
  | alternationName => "AlternationName"
  | alternationComma => "AlternationComma"
  | alternationClose => "AlternationClose"
  | newline => "Newline"
  | text => "Text"

/-- The name of a state. -/
def State.label : State → String
  | body => "Body"
  | setFirst => "SetFirst"
  | setNegated => "SetNegated"
  | set => "Set"
  | setDash => "SetDash"
  | setRangeEnd => "SetRangeEnd"
  | alternationFirst => "AlternationFirst"
  | alternationName => "AlternationName"
  | alternationSeparator => "AlternationSeparator"
  | text => "Text"

/-- The bytes that end a name outside groups. -/
def isContext (b : UInt8) : Bool :=
  b == Byte.slash || b == Byte.asterisk || b == Byte.question || b == Byte.leftBrace ||
    b == Byte.leftBracket

/-- The bytes that end a name of an alternation. -/
def isSeparator (b : UInt8) : Bool := b == Byte.comma || b == Byte.rightBrace

/-- The bytes that negate a set. -/
def isNegation (b : UInt8) : Bool := b == Byte.exclamation || b == Byte.caret

/-- Whether two bytes are the ends of a range. -/
def isRange (low high : UInt8) : Bool :=
  ((Byte.isLower low && Byte.isLower high) || (Byte.isUpper low && Byte.isUpper high) ||
    (Byte.isDigit low && Byte.isDigit high)) && low ≤ high

/-- What a step of the tokenizer of patterns does. -/
abbrev Move := Transition Unit State Token

namespace Move

/-- The cursor has read a token, and the tokenizer goes on in a state. -/
def reads (token : Token) (state : State) (c : Cursor) : Move := ⟨some token, (), state, c⟩

/-- No token begins at the cursor. -/
def refuses (state : State) (c : Cursor) : Move := ⟨none, (), state, c⟩

end Move

/-- The scan for one given byte. -/
def mark (b : UInt8) : Scan := Scan.byte (· == b)

/-- A token outside groups. -/
def readBody (c : Cursor) : Move :=
  if let some c := c.read? (mark Byte.slash) then .reads .separator .body c
  else if let some c := c.read? (mark Byte.asterisk) then
    .reads .anyRun .body (c.accept (mark Byte.asterisk)).2
  else if let some c := c.read? (mark Byte.question) then .reads .anyByte .body c
  else if let some c := c.read? (mark Byte.leftBrace) then
    .reads .alternationOpen .alternationFirst c
  else if let some c := c.read? (mark Byte.leftBracket) then .reads .setOpen .setFirst c
  else if let some c := c.read? (Scan.upToUnescaped isContext) then .reads .name .body c
  else .refuses .body c

/-- Where the tokenizer goes on behind a member of a set. An escaped member
starts no range. -/
def afterMember (escaped : Bool) (member : UInt8) (unread : Bytes) : State :=
  match unread with
  | dash :: high :: _ =>
    if dash = Byte.minus ∧ escaped = false ∧ isRange member high = true then .setDash else .set
  | _ => .set

/-- A member of a set. -/
def readMember (state : State) (c : Cursor) : Move :=
  let (escaped, c) := c.accept (mark Byte.backslash)
  match c.next with
  | none => .refuses state c
  | some (member, c) => .reads .setChar (afterMember escaped member c.rest) c

/-- A name of an alternation. -/
def readName (state : State) (c : Cursor) : Move :=
  match c.read? (Scan.upToUnescaped isSeparator) with
  | none => .refuses state c
  | some c => .reads .alternationName .alternationSeparator c

/-- One step of the tokenizer. A set without members is none. -/
def readToken (state : State) (c : Cursor) : Move :=
  match state with
  | .body => readBody c
  | .setFirst =>
    if c.peek = some Byte.rightBracket then .refuses state c
    else if let some c := c.read? (Scan.byte isNegation) then .reads .setNegation .setNegated c
    else readMember state c
  | .setNegated =>
    if c.peek = some Byte.rightBracket then .refuses state c else readMember state c
  | .set =>
    if let some c := c.read? (mark Byte.rightBracket) then .reads .setClose .body c
    else readMember state c
  | .setDash =>
    if let some c := c.read? (mark Byte.minus) then .reads .setRange .setRangeEnd c
    else .refuses state c
  | .setRangeEnd =>
    match c.next with
    | none => .refuses state c
    | some (_, c) => .reads .setChar .set c
  | .alternationFirst =>
    if let some c := c.read? (mark Byte.rightBrace) then .reads .alternationClose .body c
    else readName state c
  | .alternationName => readName state c
  | .alternationSeparator =>
    if let some c := c.read? (mark Byte.comma) then .reads .alternationComma .alternationName c
    else if let some c := c.read? (mark Byte.rightBrace) then .reads .alternationClose .body c
    else .refuses state c
  | .text => .reads .text .text c.jumpToEnd

/-- The tokenizer of patterns. -/
def tokenizer : Tokenizer Unit State Token where
  initial _ := .body
  fallback _ := some .text
  newline _ := some .newline
  step _ := readToken

/-- A lexer at the front of a pattern. -/
def lexer (options : Lexer.Options) (pattern : Bytes) : Lexer Unit State Token :=
  Lexer.start tokenizer () options pattern

/-- Steps that are enough for all tokens of a pattern: each byte is in at most one
token or line terminator, and the last line has to be left. -/
def stepBound (pattern : Bytes) : Nat := pattern.length + 1

end Octets.Glob
