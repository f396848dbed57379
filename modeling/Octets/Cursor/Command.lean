import Octets.Cursor.Primitive
import Octets.Cursor.Speculation

/-!
# Commands

Everything that can be asked of a cursor, as data, so that a sequence of
operations is a value: the body of a speculation, a rule of a tokenizer, or a
whole session with a cursor. A list of commands can be run to its end, or, as
the body of a speculation does, up to the first command whose report is a
failure.

## Main definitions

* `Command` — the operations of a cursor; those that speculate hold the commands
  they try
* `Command.run` — one command, `Command.attempt` — commands up to the first
  failure, `Command.runAll` — all commands, whatever they report
* `Command.tryAll` — commands up to the first failure, as an attempt that a
  speculation can run
-/

namespace Octets

/-- The operations of a cursor. -/
inductive Command where
  | take (p : Primitive)
  /-- The next byte, not taken. -/
  | peek
  /-- Whether the next byte is the given one. -/
  | peekIs (b : UInt8)
  | remaining
  | atEnd
  | find (b : UInt8) (pos : Nat)
  | jumpToEnd
  | jumpTo (b : UInt8)
  | token
  | collect
  | collectText
  | rest
  /-- The whole byte string. -/
  | bytes
  | beginToken
  | retreat (n : Nat)
  | seek (pos : Nat)
  | moveWindow (start stop : Nat)
  | rewind
  /-- To the front of another byte string. -/
  | load (buffer : Bytes)
  | arm (pos : Nat)
  | succeed
  | fail
  | describe
  | speculate (body : List Command)
  | lookahead (body : List Command)
  | keepProgress (body : List Command)

namespace Command

mutual

/-- One command: its report and the cursor after it. -/
def run : Command → Cursor → Reply × Cursor
  | take p, c => p.apply c
  | peek, c => (.byte c.peek, c)
  | peekIs b, c => (.flag (c.peek == some b), c)
  | remaining, c => (.count (some c.remaining), c)
  | atEnd, c => (.flag c.atEnd, c)
  | find b pos, c => (.count (c.find b pos), c)
  | jumpToEnd, c => (.flag true, c.jumpToEnd)
  | jumpTo b, c =>
    let (jump, after) := c.jumpTo b
    (.jump jump, after)
  | token, c => (.bytes c.token, c)
  | collect, c => (.bytes c.token, c.beginToken)
  | collectText, c =>
    let (text, after) := c.collectText
    (.text text, after)
  | rest, c => (.bytes c.rest, c)
  | bytes, c => (.bytes c.bytes, c)
  | beginToken, c => (.flag true, c.beginToken)
  | retreat n, c => (.flag true, c.retreat n)
  | seek pos, c => (.flag true, c.seek pos)
  | moveWindow start stop, c => (.flag true, c.moveWindow start stop)
  | rewind, c => (.flag true, c.rewind)
  | load buffer, _ => (.flag true, Cursor.ofBytes buffer)
  | arm pos, c => (.flag true, c.arm pos)
  | succeed, c => (.flag true, c)
  | fail, c => (.flag false, c)
  | describe, c => (.text (some c.describe), c)
  | speculate body, c =>
    let (log, succeeded, after) := attempt body c
    (.attempt succeeded log, if succeeded then after else c.fallBack after)
  | lookahead body, c =>
    let (log, succeeded, after) := attempt body c.fork
    let (distance, joined) := c.join succeeded after
    (.lookahead distance log, joined)
  | keepProgress body, c =>
    let (log, succeeded, after) := attempt body c
    (.attempt succeeded log, Cursor.keep succeeded after)

/-- Commands up to the first failure: the report of each with the cursor after
it, whether none failed, and the cursor at the end. -/
def attempt : List Command → Cursor → List (Reply × Cursor) × Bool × Cursor
  | [], c => ([], true, c)
  | command :: commands, c =>
    let (reply, after) := run command c
    if reply.failed then ([(reply, after)], false, after)
    else
      let (log, succeeded, last) := attempt commands after
      ((reply, after) :: log, succeeded, last)

end

/-- Commands to their end: the report of each with the cursor after it, and the
cursor at the end. -/
def runAll : List Command → Cursor → List (Reply × Cursor) × Cursor
  | [], c => ([], c)
  | command :: commands, c =>
    let (reply, after) := run command c
    let (log, last) := runAll commands after
    ((reply, after) :: log, last)

/-- Commands up to the first failure, without their reports. -/
def tryAll (commands : List Command) (c : Cursor) : Bool × Cursor := (attempt commands c).2

@[simp] theorem tryAll_nil (c : Cursor) : tryAll [] c = (true, c) := by
  simp [tryAll, attempt]

theorem tryAll_cons (command : Command) (commands : List Command) (c : Cursor) :
    tryAll (command :: commands) c =
      if (command.run c).1.failed then (false, (command.run c).2)
      else tryAll commands (command.run c).2 := by
  simp only [tryAll, attempt]
  split <;> rfl

/-- A speculation leaves the cursor that an attempt by its body leaves. -/
theorem run_speculate_cursor (body : List Command) (c : Cursor) :
    ((speculate body).run c).2 = (c.attempt (tryAll body)).2 := by
  simp only [run, Cursor.attempt, tryAll]
  rcases attempt body c with ⟨log, _ | _, after⟩ <;> rfl

/-- A lookahead leaves the cursor that its body leaves on a copy. -/
theorem run_lookahead_cursor (body : List Command) (c : Cursor) :
    ((lookahead body).run c).2 = (c.lookahead (tryAll body)).2 := by
  simp only [run, Cursor.lookahead, tryAll]

end Command

end Octets
