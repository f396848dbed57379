import Octets.Glob.Token
import Octets.Matcher

/-!
# Assembling a pattern

The tokens of a pattern are put together, from left to right, to the steps of a
matcher. Neighbouring literal tokens make one literal. A star waits for what
follows it and then makes it a search: a literal, a set or an alternation is
looked for instead of being expected at once. At the end of the pattern, a star
that still waits takes the rest of the input.

## Main definitions

* `Glob.GlobError`, `GlobError.message` — why a pattern has no matcher
* `Glob.Group` — a set or an alternation that is open
* `Glob.Assembly` — the steps so far, and what waits for the next token
* `Assembly.push`, `Assembly.finish` — one more token, and the end of the pattern
-/

namespace Octets.Glob

/-- Why a pattern has no matcher. -/
inductive GlobError where
  | empty
  /-- The text at this offset fits nowhere, or the group that begins there is not
  closed on its line. -/
  | unanchored (offset : Nat)
  | lexical (e : LexError State)
  /-- A token came where the tokenizer never yields it. -/
  | misplaced
  deriving DecidableEq, Repr

/-- The text of an error. -/
def GlobError.message : GlobError → String
  | empty => "empty glob pattern"
  | unanchored offset => "glob pattern cannot be anchored at byte " ++ toString offset
  | lexical e => e.message State.label
  | misplaced => "unreachable glob token"

/-- A group that is open, with the offset at which it began. A set remembers
whether the next member ends a range. -/
inductive Group where
  | set (offset : Nat) (negated : Bool) (members : Bytes) (inRange : Bool)
  | alternation (offset : Nat) (names : List Bytes)
  deriving DecidableEq, Repr

/-- The offset at which a group began. -/
def Group.offset : Group → Nat
  | set offset _ _ _ => offset
  | alternation offset _ => offset

/-- The bytes that a literal stands for: a backslash gives way to the byte behind
it, and a last lone one stands for itself. -/
def unescape : Bytes → Bytes
  | [] => []
  | [b] => [b]
  | b :: c :: rest => if b = Byte.backslash then c :: unescape rest else b :: unescape (c :: rest)

/-- The bytes above `low` up to `high`. -/
def rangeAbove (low high : UInt8) : Bytes := Byte.all.filter fun b => low < b && b ≤ high

/-- The steps so far, the literal that is being gathered, whether a star waits,
and the group that is open. -/
structure Assembly where
  matcher : Matcher
  literal : Bytes
  anyRun : Bool
  group : Option Group

namespace Assembly

/-- Nothing yet. -/
def empty : Assembly := ⟨Matcher.empty, [], false, none⟩

/-- One more step. -/
def addStep (a : Assembly) (step : Matcher.Step) : Assembly :=
  { a with matcher := a.matcher.push step }

/-- Makes the gathered literal a step; a star that waits is used up by it. -/
def flushLiteral (a : Assembly) : Assembly :=
  if a.literal.isEmpty then a
  else
    { a with
      matcher := a.matcher.push (if a.anyRun then .through a.literal else .literal a.literal)
      literal := []
      anyRun := false }

/-- Makes a closed group a step; a star that waits is used up by it. An
alternation without names adds nothing and leaves the star waiting. -/
def close (a : Assembly) (token : Token) (group : Group) : Except GlobError Assembly :=
  match token, group with
  | .setClose, .set _ negated members _ =>
    let cls := LeadTable.ofClass members
    let step : Matcher.Step :=
      match a.anyRun, negated with
      | false, false => .lead cls
      | false, true => .noLead cls
      | true, false => .throughEntry cls
      | true, true => .throughEntry cls.complement
    .ok { a with matcher := a.matcher.push step, anyRun := false, group := none }
  | .alternationClose, .alternation _ [] => .ok { a with group := none }
  | .alternationClose, .alternation _ names =>
    let t := LeadTable.ofSequences names
    let step : Matcher.Step := if a.anyRun then .throughEntry t else .entry t
    .ok { a with matcher := a.matcher.push step, anyRun := false, group := none }
  | _, _ => .error .misplaced

/-- One more member of a set: the end of a range brings the bytes in between
with it. -/
def addMember (members : Bytes) (inRange : Bool) (member : UInt8) : Bytes × Bool :=
  match members.getLast?, inRange with
  | some low, true => (members ++ rangeAbove low member, false)
  | _, _ => (members ++ [member], inRange)

/-- One more token inside a group. -/
def pushGrouped (a : Assembly) (group : Group) (token : Token) (text : Bytes) :
    Except GlobError Assembly :=
  match token, group with
  | .setNegation, .set offset _ members inRange =>
    .ok { a with group := some (.set offset true members inRange) }
  | .setChar, .set offset negated members inRange =>
    match text.getLast? with
    | none => .error .misplaced
    | some member =>
      let (members, inRange) := addMember members inRange member
      .ok { a with group := some (.set offset negated members inRange) }
  | .setRange, .set offset negated members _ =>
    .ok { a with group := some (.set offset negated members true) }
  | .alternationName, .alternation offset names =>
    .ok { a with group := some (.alternation offset (names ++ [unescape text])) }
  | .alternationComma, .alternation _ _ => .ok a
  | .newline, group => .error (.unanchored group.offset)
  | .setClose, group => a.close .setClose group
  | .alternationClose, group => a.close .alternationClose group
  | _, _ => .error .misplaced

/-- One more token outside groups. -/
def pushPlain (a : Assembly) (token : Token) (text : Bytes) (offset : Nat) :
    Except GlobError Assembly :=
  match token with
  | .name | .separator | .newline => .ok { a with literal := a.literal ++ unescape text }
  | .anyRun => .ok { a.flushLiteral with anyRun := true }
  | .anyByte => .ok (a.flushLiteral.addStep .any)
  | .setOpen => .ok { a.flushLiteral with group := some (.set offset false [] false) }
  | .alternationOpen => .ok { a.flushLiteral with group := some (.alternation offset []) }
  | _ => .error .misplaced

/-- One more token, with its text and the offset at which it stands. -/
def push (a : Assembly) (token : Token) (text : Bytes) (offset : Nat) :
    Except GlobError Assembly :=
  if token = .text then .error (.unanchored offset)
  else
    match a.group with
    | some group => a.pushGrouped group token text
    | none => a.pushPlain token text offset

/-- The matcher at the end of the pattern. -/
def finish (a : Assembly) : Except GlobError Matcher :=
  match a.group with
  | some group => .error (.unanchored group.offset)
  | none =>
    let a := a.flushLiteral
    .ok (if a.anyRun then a.matcher.push .remainder else a.matcher)

end Assembly

end Octets.Glob
