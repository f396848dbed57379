import Mathlib.Data.List.Forall2
import Octets.Proofs.Cursor.Invariant
import Octets.Proofs.Lexer.Lines

/-!
# Windows are transparent

To read in a window of a byte string is to read the bytes of the window on their own: every
operation reports the same and leaves the cursor at the same place of the window, at whatever
depth of a speculation. So what stands outside of the window does not count. Only a search for
a byte looks further, and says where the byte stands behind the window; the cursor stays where
it is all the same, as if the byte did not occur.

The two runs are compared in lockstep. What a program does next must not depend on where in the
byte string it reads, or else there is nothing to compare.

## Main definitions

* `Cursor.IsShifted` — a cursor over some bytes, and one over a window with the same bytes
* `Command.isLocal`, `Program.IsLocal` — what does not ask where in the bytes it reads
* `Program.log` — what every operation of a program reports, and the cursor behind it
* `Program.ofSession` — commands one after the other, whatever they report, as a program

## Main results

* `Command.isShifted_run` — one operation in a window and outside of it
* `Program.IsLocal.runsAlike` — a program in a window and outside of it
* `Program.isLocal_ofSession` — all sessions of local commands are such programs
* `Program.log_within` — a window is as good as a copy of its bytes
-/

namespace Octets

/-! ## The same place in two byte strings -/

/-- The other jump leads to the same byte, so much further on. What stands behind the window of
the other does not occur for the one. -/
inductive Jump.IsShifted (offset : Nat) : Jump → Jump → Prop
  | moved (target : Nat) : IsShifted offset (.moved target) (.moved (offset + target))
  | outside (target : Nat) : IsShifted offset .absent (.outside target)
  | absent : IsShifted offset .absent .absent

/-- The other report says the same, but for where a jump leads. -/
def Reply.IsShifted (offset : Nat) : Reply → Reply → Prop
  | jump target, jump target' => target.IsShifted offset target'
  | reply, reply' => reply' = reply

theorem Reply.IsShifted.failed {offset : Nat} {reply reply' : Reply}
    (shifted : reply.IsShifted offset reply') : reply'.failed = reply.failed := by
  unfold Reply.IsShifted at shifted
  split at shifted
  · cases shifted <;> rfl
  · exact congrArg Reply.failed shifted

namespace Cursor

/-- A cursor that sees all of its bytes, and another that sees them in a window so much further
on, with the same token start, position, window end and milestone in it. -/
structure IsShifted (offset : Nat) (c d : Cursor) : Prop where
  bytes : ∃ before behind, before.length = offset ∧ d.bytes = before ++ c.bytes ++ behind
  whole : c.stop = c.bytes.length
  start : d.start = offset + c.start
  pos : d.pos = offset + c.pos
  stop : d.stop = offset + c.stop
  milestone : d.milestone = c.milestone.map (offset + ·)

variable {c d : Cursor} {offset : Nat}

/-- The window of a byte string and its bytes on their own. -/
theorem isShifted_within {buffer : Bytes} {start stop : Nat} (ascend : start ≤ stop)
    (inside : stop ≤ buffer.length) :
    (ofBytes (buffer.slice start stop)).IsShifted start (within buffer start stop) := by
  have length : (buffer.slice start stop).length = stop - start := by
    rw [Bytes.length_slice, Nat.min_eq_left inside]
  have cut : buffer = buffer.take start ++ buffer.slice start stop ++ buffer.drop stop := by
    rw [Bytes.take_append_slice ascend, List.take_append_drop]
  constructor
  case bytes =>
    refine ⟨buffer.take start, buffer.drop stop, ?_, cut⟩
    rw [List.length_take, Nat.min_eq_left (Nat.le_trans ascend inside)]
  case whole => rfl
  case milestone => rfl
  all_goals
    simp only [ofBytes, within, length]
    omega

namespace IsShifted

variable (shifted : c.IsShifted offset d)
include shifted

theorem slice {start stop : Nat} (inside : stop ≤ c.bytes.length) :
    d.bytes.slice (offset + start) (offset + stop) = c.bytes.slice start stop := by
  obtain ⟨before, behind, rfl, bytes⟩ := shifted.bytes
  rw [bytes, Bytes.slice_append_append before behind inside]

theorem rest : d.rest = c.rest := by
  rw [Cursor.rest, shifted.pos, shifted.stop]
  exact shifted.slice (Nat.le_of_eq shifted.whole)

theorem token (wf : c.WellFormed) : d.token = c.token := by
  rw [Cursor.token, shifted.start, shifted.pos]
  exact shifted.slice (Nat.le_trans wf.2.1 wf.2.2)

theorem remaining : d.remaining = c.remaining := by
  simp only [Cursor.remaining, shifted.pos, shifted.stop, Nat.add_sub_add_left]

theorem atEnd : d.atEnd = c.atEnd := by
  simp only [Cursor.atEnd, shifted.pos, shifted.stop, Nat.add_le_add_iff_left]

theorem advance (n : Nat) : (c.advance n).IsShifted offset (d.advance n) :=
  { shifted with pos := by simp only [Cursor.advance, shifted.pos, Nat.add_assoc] }

theorem beginToken : c.beginToken.IsShifted offset d.beginToken :=
  { shifted with start := shifted.pos }

theorem jumpToEnd : c.jumpToEnd.IsShifted offset d.jumpToEnd :=
  { shifted with pos := shifted.stop }

theorem retreat (n : Nat) (wf : c.WellFormed) : (c.retreat n).IsShifted offset (d.retreat n) := by
  have ordered := wf.1
  refine { shifted with pos := ?_ }
  simp only [Cursor.retreat, shifted.pos, shifted.start]
  omega

/-- A search for a byte finds the same one, or none in the window. -/
theorem find (wf : c.WellFormed) (b : UInt8) :
    (∃ target, c.find b c.pos = some target ∧ d.find b d.pos = some (offset + target) ∧
        c.start ≤ target ∧ target < c.stop) ∨
      (c.find b c.pos = none ∧ ∀ target ∈ d.find b d.pos, d.stop ≤ target) := by
  obtain ⟨before, behind, rfl, bytes⟩ := shifted.bytes
  have inside : c.pos ≤ c.bytes.length := Nat.le_trans wf.2.1 wf.2.2
  have unread : d.bytes.drop d.pos = c.bytes.drop c.pos ++ behind := by
    rw [bytes, shifted.pos, List.append_assoc, List.drop_length_add_append,
      List.drop_append_of_le_length inside]
  have length : c.pos + (c.bytes.drop c.pos).length = c.stop := by
    rw [List.length_drop, shifted.whole, Nat.add_sub_cancel' inside]
  have searched : d.find b d.pos = (((c.bytes.drop c.pos).findIdx? (· == b)).or
      ((behind.findIdx? (· == b)).map (· + (c.bytes.drop c.pos).length))).map (d.pos + ·) := by
    rw [Cursor.find, unread, List.idxOf?, List.findIdx?_append]
  rw [searched, Cursor.find, List.idxOf?, shifted.pos, shifted.stop]
  cases here : (c.bytes.drop c.pos).findIdx? (· == b) with
  | some n =>
    obtain ⟨short, _⟩ := List.findIdx?_eq_some_iff_getElem.mp here
    refine .inl ⟨c.pos + n, rfl, congrArg some (Nat.add_assoc ..), ?_, by omega⟩
    exact Nat.le_trans wf.1 (Nat.le_add_right _ _)
  | none =>
    -- Whatever is found then stands behind the bytes of the window.
    refine .inr ⟨rfl, fun target found => ?_⟩
    obtain ⟨m, later, rfl⟩ := Option.map_eq_some_iff.mp found
    obtain ⟨n, _, rfl⟩ := Option.map_eq_some_iff.mp later
    omega

/-- A jump leads to the same byte, or the cursor stays. -/
theorem jumpTo (wf : c.WellFormed) (b : UInt8) :
    (c.jumpTo b).1.IsShifted offset (d.jumpTo b).1 ∧
      (c.jumpTo b).2.IsShifted offset (d.jumpTo b).2 := by
  obtain ⟨target, found, found', inside⟩ | ⟨absent, behind⟩ := shifted.find wf b
  · have inside' : d.start ≤ offset + target ∧ offset + target < d.stop := by
      rw [shifted.start, shifted.stop]
      omega
    simp only [Cursor.jumpTo, found, found', if_pos inside, if_pos inside']
    exact ⟨.moved target, { shifted with pos := rfl }⟩
  · simp only [Cursor.jumpTo, absent]
    cases found : d.find b d.pos with
    | none => exact ⟨.absent, shifted⟩
    | some target =>
      have outside : ¬ (d.start ≤ target ∧ target < d.stop) := fun inside =>
        absurd inside.2 (Nat.not_lt.mpr (behind target found))
      simp only [if_neg outside]
      exact ⟨.outside target, shifted⟩

end IsShifted

end Cursor

/-! ## Operations -/

namespace Command

/-- The commands that neither name a place in the bytes nor look at more than the window, a
search for a byte aside. -/
def isLocal : Command → Bool
  | take _ | peek | peekIs _ | remaining | atEnd | jumpToEnd | jumpTo _ | token | collect
  | collectText | rest | beginToken | retreat _ | succeed | fail => true
  | _ => false

mutual

/-- A command that is local, as is all that it tries. -/
def isLocalThroughout : Command → Bool
  | speculate body => areLocal body
  | lookahead body => areLocal body
  | keepProgress body => areLocal body
  | command => command.isLocal

def areLocal : List Command → Bool
  | [] => true
  | command :: commands => command.isLocalThroughout && areLocal commands

end

variable {command : Command} {c d : Cursor} {offset : Nat}

theorem isPlain_of_isLocal (isLocal : command.isLocal = true) :
    command.isPlain = true ∧ command.movesWindow = false := by
  cases command <;> simp_all [Command.isLocal, isPlain, movesWindow]

theorem isShifted_apply (p : Primitive) (shifted : c.IsShifted offset d) :
    (p.apply c).1.IsShifted offset (p.apply d).1 ∧
      (p.apply c).2.IsShifted offset (p.apply d).2 := by
  have unread := shifted.rest
  cases takes : p.scan c.rest with
  | none =>
    rw [Primitive.apply_of_none takes, Primitive.apply_of_none (unread ▸ takes)]
    refine ⟨?_, shifted⟩
    cases p <;> rfl
  | some n =>
    rw [Primitive.apply_of_some takes, Primitive.apply_of_some (unread ▸ takes), unread]
    refine ⟨?_, shifted.advance n⟩
    cases p <;> rfl

/-- An operation reports the same, and leaves the cursor at the same place. -/
theorem isShifted_run (isLocal : command.isLocal = true) (wf : c.WellFormed)
    (shifted : c.IsShifted offset d) :
    (command.run c).1.IsShifted offset (command.run d).1 ∧
      (command.run c).2.IsShifted offset (command.run d).2 := by
  have peek : d.peek = c.peek := congrArg List.head? shifted.rest
  cases command with
  | take p => exact isShifted_apply p shifted
  | peek => exact ⟨congrArg Reply.byte peek, shifted⟩
  | peekIs b => exact ⟨by simp only [run, peek, Reply.IsShifted], shifted⟩
  | remaining => exact ⟨congrArg (Reply.count ∘ some) shifted.remaining, shifted⟩
  | atEnd => exact ⟨congrArg Reply.flag shifted.atEnd, shifted⟩
  | jumpToEnd => exact ⟨rfl, shifted.jumpToEnd⟩
  | jumpTo b => exact shifted.jumpTo wf b
  | token => exact ⟨congrArg Reply.bytes (shifted.token wf), shifted⟩
  | collect => exact ⟨congrArg Reply.bytes (shifted.token wf), shifted.beginToken⟩
  | collectText =>
    refine ⟨?_, shifted.beginToken⟩
    simp only [run, Cursor.collectText, shifted.token wf, Reply.IsShifted]
  | rest => exact ⟨congrArg Reply.bytes shifted.rest, shifted⟩
  | beginToken => exact ⟨rfl, shifted.beginToken⟩
  | retreat n => exact ⟨rfl, shifted.retreat n wf⟩
  | succeed => exact ⟨rfl, shifted⟩
  | fail => exact ⟨rfl, shifted⟩
  | _ => cases isLocal

end Command

/-! ## Speculations -/

namespace Cursor.IsShifted

variable {c d c' d' : Cursor} {offset : Nat}

theorem fork (shifted : c.IsShifted offset d) : c.fork.IsShifted offset d.fork :=
  { shifted with milestone := rfl }

theorem milestone? (shifted : c.IsShifted offset d) :
    d.milestone? = c.milestone?.map (offset + ·) := by
  simp only [Cursor.milestone?, shifted.milestone, shifted.start, shifted.stop, Option.map_map]
  congr 1
  funext pos
  simp only [Function.comp_apply]
  omega

/-- A failure falls back to the same place. -/
theorem fallBack (shifted : c.IsShifted offset d) (after : c'.IsShifted offset d') :
    (c.fallBack c').IsShifted offset (d.fallBack d') := by
  have back : ({ c' with start := c.start } : Cursor).IsShifted offset
      { d' with start := d.start } := { after with start := shifted.start }
  refine { back with pos := ?_, milestone := rfl }
  -- The milestone is drawn into the window that begins with the token start from before.
  have kept := back.milestone?
  simp only [Cursor.fallBack]
  rw [kept, shifted.start, shifted.pos]
  cases ({ c' with start := c.start } : Cursor).milestone? with
  | none => exact Nat.add_max_add_left ..
  | some pos => exact Nat.add_max_add_left ..

/-- A lookahead moves equally far. -/
theorem join (shifted : c.IsShifted offset d) (after : c'.IsShifted offset d')
    (succeeded : Bool) :
    (d.join succeeded d').1 = (c.join succeeded c').1 ∧
      (c.join succeeded c').2.IsShifted offset (d.join succeeded d').2 := by
  have forward : (d.pos ≤ d'.pos) = (c.pos ≤ c'.pos) := by
    rw [shifted.pos, after.pos, Nat.add_le_add_iff_left]
  have distance : d'.pos - d.pos = c'.pos - c.pos := by
    rw [shifted.pos, after.pos, Nat.add_sub_add_left]
  simp only [Cursor.join, forward, distance, after.milestone?]
  split
  · exact ⟨rfl, { shifted with pos := after.pos }⟩
  · cases c'.milestone? with
    | none => exact ⟨rfl, shifted⟩
    | some pos =>
      refine ⟨rfl, { shifted with pos := ?_ }⟩
      simp only [Option.map_some, shifted.start, Nat.add_max_add_left]

theorem keep (shifted : c.IsShifted offset d) (succeeded : Bool) :
    (Cursor.keep succeeded c).IsShifted offset (Cursor.keep succeeded d) := by
  cases succeeded with
  | true => exact shifted
  | false => exact { shifted with milestone := congrArg some (congrArg (· + 1) shifted.pos) }

end Cursor.IsShifted

/-! ## Programs -/

namespace Program

variable {p body : Program} {c d : Cursor} {offset : Nat}

/-- The programs that do not ask where in the bytes they read: they consist of such commands,
and what comes next is the same wherever the same has been reported at the same place of the
same window. -/
def IsLocal : Program → Prop
  | finish _ => True
  | call command next =>
    command.isLocal = true ∧
      (∀ offset c d reply reply', c.IsShifted offset d → reply.IsShifted offset reply' →
        next reply' d = next reply c) ∧
      ∀ reply after, (next reply after).IsLocal
  | speculate body next =>
    body.IsLocal ∧
      (∀ offset c d succeeded, c.IsShifted offset d → next succeeded d = next succeeded c) ∧
      ∀ succeeded after, (next succeeded after).IsLocal
  | lookahead body next =>
    body.IsLocal ∧
      (∀ offset c d distance, c.IsShifted offset d → next distance d = next distance c) ∧
      ∀ distance after, (next distance after).IsLocal
  | keepProgress body next =>
    body.IsLocal ∧
      (∀ offset c d succeeded, c.IsShifted offset d → next succeeded d = next succeeded c) ∧
      ∀ succeeded after, (next succeeded after).IsLocal

theorem IsLocal.isConfined (isLocal : p.IsLocal) (speculating : Bool) :
    p.IsConfined speculating := by
  induction p generalizing speculating with
  | finish succeeded => trivial
  | call command next ih =>
    obtain ⟨plain, stays⟩ := Command.isPlain_of_isLocal isLocal.1
    exact ⟨plain, fun _ => stays, fun reply after => ih _ _ (isLocal.2.2 reply after) _⟩
  | speculate body next ihBody ihNext =>
    exact ⟨ihBody isLocal.1 _, fun succeeded after => ihNext _ _ (isLocal.2.2 succeeded after) _⟩
  | lookahead body next ihBody ihNext =>
    exact ⟨ihBody isLocal.1 _, fun distance after => ihNext _ _ (isLocal.2.2 distance after) _⟩
  | keepProgress body next ihBody ihNext =>
    exact ⟨ihBody isLocal.1 _, fun succeeded after => ihNext _ _ (isLocal.2.2 succeeded after) _⟩

/-- What every operation of a program reports, with the cursor behind it, in the order in which
they are done. What is tried comes in front of what the attempt itself reports. -/
def log : Program → Cursor → List (Reply × Cursor)
  | finish _, _ => []
  | call command next, c =>
    let event := command.run c
    event :: (next event.1 event.2).log event.2
  | speculate body next, c =>
    let event := c.attempt body.run
    body.log c ++ (.flag event.1, event.2) :: (next event.1 event.2).log event.2
  | lookahead body next, c =>
    let event := c.lookahead body.run
    body.log c.fork ++ (.count event.1, event.2) :: (next event.1 event.2).log event.2
  | keepProgress body next, c =>
    let event := c.keepProgress body.run
    body.log c ++ (.flag event.1, event.2) :: (next event.1 event.2).log event.2

/-- The program does the same on both cursors: its operations report the same and lead to the
same places, and so does the program as a whole. -/
structure RunsAlike (offset : Nat) (p : Program) (c d : Cursor) : Prop where
  log : List.Forall₂
    (fun event event' => event.1.IsShifted offset event'.1 ∧ event.2.IsShifted offset event'.2)
    (p.log c) (p.log d)
  verdict : (p.run d).1 = (p.run c).1
  cursor : (p.run c).2.IsShifted offset (p.run d).2

theorem RunsAlike.attempt (alike : body.RunsAlike offset c d) (shifted : c.IsShifted offset d) :
    (d.attempt body.run).1 = (c.attempt body.run).1 ∧
      (c.attempt body.run).2.IsShifted offset (d.attempt body.run).2 := by
  obtain ⟨_, verdict, after⟩ := alike
  unfold Cursor.attempt
  generalize body.run c = tried, body.run d = tried' at verdict after ⊢
  obtain ⟨succeeded, last⟩ := tried
  obtain ⟨succeeded', last'⟩ := tried'
  obtain rfl : succeeded' = succeeded := verdict
  cases succeeded' with
  | true => exact ⟨rfl, after⟩
  | false => exact ⟨rfl, shifted.fallBack after⟩

theorem RunsAlike.lookahead (alike : body.RunsAlike offset c.fork d.fork)
    (shifted : c.IsShifted offset d) :
    (d.lookahead body.run).1 = (c.lookahead body.run).1 ∧
      (c.lookahead body.run).2.IsShifted offset (d.lookahead body.run).2 := by
  simp only [Cursor.lookahead, alike.verdict]
  exact shifted.join alike.cursor _

theorem RunsAlike.keepProgress (alike : body.RunsAlike offset c d) :
    (d.keepProgress body.run).1 = (c.keepProgress body.run).1 ∧
      (c.keepProgress body.run).2.IsShifted offset (d.keepProgress body.run).2 := by
  refine ⟨alike.verdict, ?_⟩
  simp only [Cursor.keepProgress, alike.verdict]
  exact alike.cursor.keep _

/-- A program that does not ask where it reads does the same in a window and outside of it. -/
theorem IsLocal.runsAlike (isLocal : p.IsLocal) (wf : c.WellFormed)
    (shifted : c.IsShifted offset d) : p.RunsAlike offset c d := by
  induction p generalizing c d with
  | finish succeeded => exact ⟨.nil, rfl, shifted⟩
  | call command next ih =>
    obtain ⟨allowed, same, later⟩ := isLocal
    obtain ⟨reply, after⟩ := Command.isShifted_run allowed wf shifted
    have wf' := Command.wellFormed_run (Command.isPlain_of_isLocal allowed).1 wf
    have again := same _ _ _ _ _ after reply
    obtain ⟨log, verdict, cursor⟩ := ih _ _ (later _ _) wf' after
    constructor <;> simp only [Program.log, run, again]
    · exact .cons ⟨reply, after⟩ log
    · exact verdict
    · exact cursor
  | speculate body next ihBody ihNext =>
    obtain ⟨inner, same, later⟩ := isLocal
    have tried := ihBody inner wf shifted
    obtain ⟨succeeded, after⟩ := tried.attempt shifted
    obtain ⟨kept, window⟩ := wellFormed_run (inner.isConfined true) wf
    have wf' := (wellFormed_attempt wf kept (window rfl)).1
    have again := same _ _ _ (c.attempt body.run).1 after
    obtain ⟨log, verdict, cursor⟩ := ihNext _ _ (later _ _) wf' after
    constructor <;> simp only [Program.log, run, succeeded, again]
    · exact List.rel_append tried.log (.cons ⟨rfl, after⟩ log)
    · exact verdict
    · exact cursor
  | lookahead body next ihBody ihNext =>
    obtain ⟨inner, same, later⟩ := isLocal
    -- The body runs on copies that have no milestone, which are at the same place too.
    have tried := ihBody (c := c.fork) inner wf shifted.fork
    obtain ⟨distance, after⟩ := tried.lookahead shifted
    obtain ⟨kept, window⟩ := wellFormed_run (c := c.fork) (inner.isConfined true) wf
    have wf' := (wellFormed_lookahead wf kept (window rfl)).1
    have again := same _ _ _ (c.lookahead body.run).1 after
    obtain ⟨log, verdict, cursor⟩ := ihNext _ _ (later _ _) wf' after
    constructor <;> simp only [Program.log, run, distance, again]
    · exact List.rel_append tried.log (.cons ⟨rfl, after⟩ log)
    · exact verdict
    · exact cursor
  | keepProgress body next ihBody ihNext =>
    obtain ⟨inner, same, later⟩ := isLocal
    have tried := ihBody inner wf shifted
    obtain ⟨succeeded, after⟩ := tried.keepProgress
    have kept := (wellFormed_run (inner.isConfined true) wf).1
    have wf' := wellFormed_keepProgress kept
    have again := same _ _ _ (c.keepProgress body.run).1 after
    obtain ⟨log, verdict, cursor⟩ := ihNext _ _ (later _ _) wf' after
    constructor <;> simp only [Program.log, run, succeeded, again]
    · exact List.rel_append tried.log (.cons ⟨rfl, after⟩ log)
    · exact verdict
    · exact cursor

/-! ## Lists of commands -/

mutual

theorem isLocal_ofCommand (command : Command) {next : Bool → Program}
    (isLocal : command.isLocalThroughout = true)
    (continues : ∀ succeeded, (next succeeded).IsLocal) : (ofCommand command next).IsLocal := by
  cases command with
  | speculate body =>
    exact ⟨isLocal_ofCommands body isLocal, fun _ _ _ _ _ => rfl, fun _ _ => continues _⟩
  | lookahead body =>
    exact ⟨isLocal_ofCommands body isLocal, fun _ _ _ _ _ => rfl, fun _ _ => continues _⟩
  | keepProgress body =>
    exact ⟨isLocal_ofCommands body isLocal, fun _ _ _ _ _ => rfl, fun _ _ => continues _⟩
  | _ =>
    refine ⟨isLocal, fun offset c d reply reply' _ shifted => ?_, fun _ _ => continues _⟩
    simp only [shifted.failed]

/-- Commands that are local make up a program that is. -/
theorem isLocal_ofCommands (commands : List Command)
    (areLocal : Command.areLocal commands = true) : (ofCommands commands).IsLocal := by
  cases commands with
  | nil => trivial
  | cons command commands =>
    obtain ⟨first, others⟩ := Bool.and_eq_true_iff.mp areLocal
    refine isLocal_ofCommand command first fun succeeded => ?_
    cases succeeded with
    | true => exact isLocal_ofCommands commands others
    | false => trivial

end

/-- All of the commands, whatever they report. -/
def ofSession : List Command → Program
  | [] => finish true
  | command :: commands => ofCommand command fun _ => ofSession commands

theorem run_ofSession (commands : List Command) (c : Cursor) :
    (ofSession commands).run c = (true, (Command.runAll commands c).2) := by
  induction commands generalizing c with
  | nil => rfl
  | cons command commands ih =>
    rw [ofSession, run_ofCommand, ih]
    rfl

theorem isLocal_ofSession {commands : List Command}
    (areLocal : Command.areLocal commands = true) : (ofSession commands).IsLocal := by
  induction commands with
  | nil => trivial
  | cons command commands ih =>
    obtain ⟨first, others⟩ := Bool.and_eq_true_iff.mp areLocal
    exact isLocal_ofCommand command first fun _ => ih others

/-! ## Windows -/

/-- In a window of a byte string a program does what it does on a copy of the bytes in the
window: its operations report the same, and at each of them token start, position, window end
and milestone are those of the copy, counted from the front of the byte string. -/
theorem log_within {buffer : Bytes} {start stop : Nat} (isLocal : p.IsLocal)
    (ascend : start ≤ stop) (inside : stop ≤ buffer.length) :
    List.Forall₂
        (fun event event' => event.1.IsShifted start event'.1 ∧ event.2.IsShifted start event'.2)
        (p.log (.ofBytes (buffer.slice start stop))) (p.log (.within buffer start stop)) ∧
      (p.run (.within buffer start stop)).1 = (p.run (.ofBytes (buffer.slice start stop))).1 ∧
      (p.run (.ofBytes (buffer.slice start stop))).2.IsShifted start
        (p.run (.within buffer start stop)).2 := by
  have shifted := Cursor.isShifted_within ascend inside
  obtain ⟨log, verdict, cursor⟩ := isLocal.runsAlike (Cursor.wellFormed_ofBytes _) shifted
  exact ⟨log, verdict, cursor⟩

/-- Progress that is kept one byte behind the window, and drawn into it when the speculation
fails, though the semicolon for which it asked does follow there. Nor is it jumped to. -/
theorem log_within_keptAtEnd :
    let buffer := Bytes.ofText "a;k=v;b"
    let program := ofSession
      [.take (.byte (· == 'k'.toUInt8)), .beginToken,
        .speculate [.take (.literal (Bytes.ofText "=")),
          .keepProgress [.take (.literal (Bytes.ofText "v")), .take (.literal (Bytes.ofText ";"))]],
        .jumpTo ';'.toUInt8, .lookahead [.take (.run fun _ => true)], .collect]
    (program.IsLocal ∧ 2 ≤ 5 ∧ 5 ≤ buffer.length) ∧
      List.Forall₂
          (fun event event' => event.1.IsShifted 2 event'.1 ∧ event.2.IsShifted 2 event'.2)
          (program.log (.ofBytes (buffer.slice 2 5))) (program.log (.within buffer 2 5)) ∧
        (program.run (.within buffer 2 5)).1 = (program.run (.ofBytes (buffer.slice 2 5))).1 ∧
        (program.run (.ofBytes (buffer.slice 2 5))).2.IsShifted 2
          (program.run (.within buffer 2 5)).2 := by
  intro buffer program
  have isLocal : program.IsLocal := isLocal_ofSession rfl
  have inside : 5 ≤ buffer.length := by decide
  exact ⟨⟨isLocal, by decide, inside⟩, log_within isLocal (by decide) inside⟩

end Program

end Octets
