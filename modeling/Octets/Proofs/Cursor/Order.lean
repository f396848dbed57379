import Octets.Proofs.Cursor.Invariant

/-!
# Runs whose bounds stay in order

The unread bytes and the token are cut out of the byte string, and a milestone is drawn between
the token start and the end of the window. Where the bounds of a cut descend, or the two ends
between which a milestone is drawn, a run is broken off: nothing is reported, and no cursor is
left. An attempt that draws the window in and then fails can leave such a cursor, as it gives
back a position behind the end of the new window.

In order are the runs that are not broken off anywhere, at whatever depth of a speculation. A
program that speculates in one window always runs in order, from every well-formed cursor.

## Main definitions

* `Cursor.RestInOrder`, `Cursor.TokenInOrder` — cuts with ascending bounds
* `Cursor.FallsInOrder`, `Cursor.JoinsInOrder` — speculations whose milestone can be drawn
* `Command.InOrder`, `Program.InOrder` — what runs to its end

## Main results

* `Program.IsConfined.inOrder` — programs that keep the window run in order
-/

namespace Octets

namespace Cursor

/-- The bounds of the unread bytes ascend. -/
def RestInOrder (c : Cursor) : Prop := c.pos ≤ c.stop ∧ c.stop ≤ c.bytes.length

/-- The bounds of the token ascend. -/
def TokenInOrder (c : Cursor) : Prop := c.start ≤ c.pos ∧ c.pos ≤ c.bytes.length

/-- An attempt on the cursor that fails with a milestone draws it between the token start from
before and the end of the window as the attempt has left it. -/
def FallsInOrder (before : Cursor) (tried : Bool × Cursor) : Prop :=
  tried.1 = false → tried.2.milestone ≠ none → before.start ≤ tried.2.stop

/-- A lookahead that fails, or has gone back, draws a milestone into the window of its copy. -/
def JoinsInOrder (before : Cursor) (tried : Bool × Cursor) : Prop :=
  (tried.1 && before.pos ≤ tried.2.pos) = false → tried.2.milestone ≠ none →
    tried.2.start ≤ tried.2.stop

instance (before : Cursor) (tried : Bool × Cursor) : Decidable (before.FallsInOrder tried) :=
  inferInstanceAs (Decidable (_ → _ → _))

instance (before : Cursor) (tried : Bool × Cursor) : Decidable (before.JoinsInOrder tried) :=
  inferInstanceAs (Decidable (_ → _ → _))

variable {c after : Cursor} {succeeded : Bool}

theorem WellFormed.restInOrder (wf : c.WellFormed) : c.RestInOrder := wf.2

theorem WellFormed.tokenInOrder (wf : c.WellFormed) : c.TokenInOrder :=
  ⟨wf.1, Nat.le_trans wf.2.1 wf.2.2⟩

/-- An attempt that stays in the window has a place to fall back to. -/
theorem SameWindow.fallsInOrder (same : c.SameWindow after) (wf : c.WellFormed) :
    c.FallsInOrder (succeeded, after) :=
  fun _ _ => same.stop ▸ Nat.le_trans wf.1 wf.2.1

/-- So has a lookahead that leaves its copy well formed. -/
theorem WellFormed.joinsInOrder (wf : after.WellFormed) : c.JoinsInOrder (succeeded, after) :=
  fun _ _ => Nat.le_trans wf.1 wf.2.1

end Cursor

/-! ## Operations -/

namespace Command

mutual

/-- What an operation cuts out of the bytes has ascending bounds, and so has everything that it
tries. -/
def InOrder : Command → Cursor → Prop
  | take _, c | peek, c | peekIs _, c | rest, c => c.RestInOrder
  | remaining, c => c.pos ≤ c.stop
  | token, c | collect, c | collectText, c => c.TokenInOrder
  | describe, c => c.TokenInOrder ∧ c.RestInOrder
  | speculate body, c => TriedInOrder body c ∧ c.FallsInOrder (tryAll body c)
  | lookahead body, c => TriedInOrder body c.fork ∧ c.JoinsInOrder (tryAll body c.fork)
  | keepProgress body, c => TriedInOrder body c
  | _, _ => True

/-- The same of operations up to the first failure. -/
def TriedInOrder : List Command → Cursor → Prop
  | [], _ => True
  | command :: commands, c =>
    command.InOrder c ∧
      ((command.run c).1.failed = false → TriedInOrder commands (command.run c).2)

end

theorem inOrder_of_wellFormed {command : Command} {c : Cursor} (plain : command.isPlain = true)
    (wf : c.WellFormed) : command.InOrder c := by
  cases command with
  | take p => exact wf.restInOrder
  | peek => exact wf.restInOrder
  | peekIs b => exact wf.restInOrder
  | rest => exact wf.restInOrder
  | remaining => exact wf.2.1
  | token => exact wf.tokenInOrder
  | collect => exact wf.tokenInOrder
  | collectText => exact wf.tokenInOrder
  | describe => exact ⟨wf.tokenInOrder, wf.restInOrder⟩
  | speculate body => cases plain
  | lookahead body => cases plain
  | keepProgress body => cases plain
  | _ => trivial

end Command

/-! ## Programs -/

namespace Program

/-- All operations of a program, and all that it tries, run in order. -/
def InOrder : Program → Cursor → Prop
  | finish _, _ => True
  | call command next, c =>
    command.InOrder c ∧ (next (command.run c).1 (command.run c).2).InOrder (command.run c).2
  | speculate body next, c =>
    (body.InOrder c ∧ c.FallsInOrder (body.run c)) ∧
      (next (c.attempt body.run).1 (c.attempt body.run).2).InOrder (c.attempt body.run).2
  | lookahead body next, c =>
    (body.InOrder c.fork ∧ c.JoinsInOrder (body.run c.fork)) ∧
      (next (c.lookahead body.run).1 (c.lookahead body.run).2).InOrder (c.lookahead body.run).2
  | keepProgress body next, c =>
    body.InOrder c ∧
      (next (c.keepProgress body.run).1 (c.keepProgress body.run).2).InOrder
        (c.keepProgress body.run).2

variable {p : Program} {c : Cursor} {speculating : Bool}

/-- A program whose speculations leave the window where it is runs in order. -/
theorem IsConfined.inOrder (confined : p.IsConfined speculating) (wf : c.WellFormed) :
    p.InOrder c := by
  induction p generalizing c speculating with
  | finish succeeded => trivial
  | call command next ih =>
    obtain ⟨plain, _, later⟩ := confined
    exact ⟨Command.inOrder_of_wellFormed plain wf,
      ih _ _ (later _ _) (Command.wellFormed_run plain wf)⟩
  | speculate body next ihBody ihNext =>
    obtain ⟨inner, later⟩ := confined
    obtain ⟨kept, same⟩ := wellFormed_run inner wf
    have behind := (wellFormed_attempt wf kept (same rfl)).1
    exact ⟨⟨ihBody inner wf, (same rfl).fallsInOrder wf⟩, ihNext _ _ (later _ _) behind⟩
  | lookahead body next ihBody ihNext =>
    obtain ⟨inner, later⟩ := confined
    obtain ⟨kept, same⟩ := wellFormed_run (c := c.fork) inner wf
    have behind := (wellFormed_lookahead wf kept (same rfl)).1
    exact ⟨⟨ihBody (c := c.fork) inner wf, kept.joinsInOrder⟩, ihNext _ _ (later _ _) behind⟩
  | keepProgress body next ihBody ihNext =>
    obtain ⟨inner, later⟩ := confined
    have kept := wellFormed_keepProgress (wellFormed_run inner wf).1
    exact ⟨ihBody inner wf, ihNext _ _ (later _ _) kept⟩

/-- In a speculation that draws the window in, a milestone may have no place. -/
example :
    let c := Cursor.within (Bytes.ofText "abc") 2 3
    let inner := call (.moveWindow 0 1) fun _ _ => finish false
    let p := speculate inner fun _ _ => call (.arm 0) fun _ _ => finish false
    ¬ c.JoinsInOrder (p.run c.fork) := by
  decide

end Program

end Octets
