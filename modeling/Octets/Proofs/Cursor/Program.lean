import Octets.Cursor.Command

/-!
# Programs that read

A program is what is done with a cursor: one operation after the other, each chosen after
what the ones before it came to, and at the end the verdict on which a speculation depends.
Programs may be tried inside of programs, to any depth. A list of commands that is tried up
to the first failure is a program, but programs may go on behind a failure, and end in
whatever verdict they like.

While a program runs it *comes to* other programs: those that are left to run behind an
operation, and the bodies that are tried with what is left of them. Every cursor that an
operation is given or leaves, at whatever depth, belongs to a program that is come to.

## Main definitions

* `Program`, `Program.run` — the programs, their verdicts and the cursors that they leave
* `Program.ComesTo` — the programs that a program comes to, each with its cursor
* `Program.IsConfined` — programs whose speculations leave the window where it is
* `Program.ofCommands` — commands up to the first failure, as a program

## Main results

* `Program.run_ofCommands` — commands run as a program do what they do as commands
-/

namespace Octets

/-- The commands that try no others. -/
def Command.isPlain : Command → Bool
  | speculate _ | lookahead _ | keepProgress _ => false
  | _ => true

/-- The commands that put the cursor into another window. -/
def Command.movesWindow : Command → Bool
  | moveWindow _ _ | rewind | load _ => true
  | _ => false

/-- What is done with a cursor. What comes next may depend on all that can be seen: on what
the operation reports and on the cursor that it leaves. -/
inductive Program where
  | finish (succeeded : Bool)
  | call (command : Command) (next : Reply → Cursor → Program)
  | speculate (body : Program) (next : Bool → Cursor → Program)
  | lookahead (body : Program) (next : Option Nat → Cursor → Program)
  | keepProgress (body : Program) (next : Bool → Cursor → Program)

namespace Program

/-- The verdict of a program, and the cursor that it leaves. -/
def run : Program → Cursor → Bool × Cursor
  | finish succeeded, c => (succeeded, c)
  | call command next, c =>
    let (reply, after) := command.run c
    (next reply after).run after
  | speculate body next, c =>
    let (succeeded, after) := c.attempt body.run
    (next succeeded after).run after
  | lookahead body next, c =>
    let (distance, after) := c.lookahead body.run
    (next distance after).run after
  | keepProgress body next, c =>
    let (succeeded, after) := c.keepProgress body.run
    (next succeeded after).run after

/-- What a program, run on a cursor, comes to, and on which cursor. -/
inductive ComesTo : Program → Cursor → Program → Cursor → Prop
  | here (p : Program) (c : Cursor) : ComesTo p c p c
  | behindCall {command : Command} {next : Reply → Cursor → Program} {c d : Cursor}
      {q : Program} :
      ComesTo (next (command.run c).1 (command.run c).2) (command.run c).2 q d →
        ComesTo (.call command next) c q d
  | insideAttempt {body q : Program} {next : Bool → Cursor → Program} {c d : Cursor} :
      ComesTo body c q d → ComesTo (.speculate body next) c q d
  | behindAttempt {body q : Program} {next : Bool → Cursor → Program} {c d : Cursor} :
      ComesTo (next (c.attempt body.run).1 (c.attempt body.run).2) (c.attempt body.run).2 q d →
        ComesTo (.speculate body next) c q d
  | insideLookahead {body q : Program} {next : Option Nat → Cursor → Program} {c d : Cursor} :
      ComesTo body c.fork q d → ComesTo (.lookahead body next) c q d
  | behindLookahead {body q : Program} {next : Option Nat → Cursor → Program} {c d : Cursor} :
      ComesTo (next (c.lookahead body.run).1 (c.lookahead body.run).2)
          (c.lookahead body.run).2 q d →
        ComesTo (.lookahead body next) c q d
  | insideKeep {body q : Program} {next : Bool → Cursor → Program} {c d : Cursor} :
      ComesTo body c q d → ComesTo (.keepProgress body next) c q d
  | behindKeep {body q : Program} {next : Bool → Cursor → Program} {c d : Cursor} :
      ComesTo (next (c.keepProgress body.run).1 (c.keepProgress body.run).2)
          (c.keepProgress body.run).2 q d →
        ComesTo (.keepProgress body next) c q d

/-- The programs that do not put the cursor into another window while they speculate, given
whether they are themselves part of a speculation. -/
def IsConfined (speculating : Bool) : Program → Prop
  | finish _ => True
  | call command next =>
    command.isPlain = true ∧ (speculating = true → command.movesWindow = false) ∧
      ∀ reply after, (next reply after).IsConfined speculating
  | speculate body next =>
    body.IsConfined true ∧ ∀ succeeded after, (next succeeded after).IsConfined speculating
  | lookahead body next =>
    body.IsConfined true ∧ ∀ distance after, (next distance after).IsConfined speculating
  | keepProgress body next =>
    body.IsConfined speculating ∧
      ∀ succeeded after, (next succeeded after).IsConfined speculating

/-! ## Lists of commands -/

mutual

/-- One command, and then what depends on whether it succeeded. -/
def ofCommand : Command → (Bool → Program) → Program
  | .speculate body, next => speculate (ofCommands body) fun succeeded _ => next succeeded
  | .lookahead body, next => lookahead (ofCommands body) fun distance _ => next distance.isSome
  | .keepProgress body, next => keepProgress (ofCommands body) fun succeeded _ => next succeeded
  | command, next => call command fun reply _ => next !reply.failed

/-- Commands up to the first failure. -/
def ofCommands : List Command → Program
  | [] => finish true
  | command :: commands =>
    ofCommand command fun succeeded => if succeeded then ofCommands commands else finish false

end

mutual

theorem run_ofCommand (command : Command) (next : Bool → Program) (c : Cursor) :
    (ofCommand command next).run c =
      (next !(command.run c).1.failed).run (command.run c).2 := by
  cases command with
  | speculate body =>
    have same : (ofCommands body).run = Command.tryAll body := funext (run_ofCommands body)
    rw [ofCommand, run, same, Command.run_speculate_cursor]
    simp only [Command.run, Cursor.attempt, Command.tryAll]
    rcases Command.attempt body c with ⟨log, _ | _, after⟩ <;> rfl
  | lookahead body =>
    have same : (ofCommands body).run = Command.tryAll body := funext (run_ofCommands body)
    rw [ofCommand, run, same, Command.run_lookahead_cursor]
    simp only [Command.run, Cursor.lookahead, Command.tryAll, Reply.failed]
    cases (c.join _ _).1 <;> rfl
  | keepProgress body =>
    have same : (ofCommands body).run = Command.tryAll body := funext (run_ofCommands body)
    rw [ofCommand, run, same]
    simp only [Command.run, Cursor.keepProgress, Command.tryAll, Reply.failed, Bool.not_not]
  | _ => simp only [ofCommand, run]

/-- Commands run as a program do what they do as commands. -/
theorem run_ofCommands (commands : List Command) (c : Cursor) :
    (ofCommands commands).run c = Command.tryAll commands c := by
  cases commands with
  | nil => rw [ofCommands, run, Command.tryAll_nil]
  | cons command commands =>
    rw [ofCommands, run_ofCommand, Command.tryAll_cons]
    cases (command.run c).1.failed with
    | true => rfl
    | false => exact run_ofCommands commands _

end

end Program

end Octets
