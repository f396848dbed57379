import Octets.Proofs.Cursor.Lookahead
import Octets.Proofs.Cursor.Order

/-!
# What a failure gives back

A speculation that fails should leave the cursor as it was: the window, the token start, and
the position unless a milestone was armed, which then decides the position inside of the
window. What is tried may do anything to the cursor that callers can do, moving its window
included.

An attempt on the cursor gives back the token start and, without a milestone, the position. It
does not give back the window, and so restores the cursor if and only if what was tried has left
the window where it was. A lookahead cannot touch the window. It restores the cursor unless a
milestone was armed in another window, behind the end of this one. All this is said of runs whose
bounds stay in order: with its window moved, an attempt may break off, and then there is no cursor
to restore. Where the window is left alone, none breaks off.

## Main definitions

* `Cursor.Restores` — what a failure should leave

## Main results

* `Cursor.restores_attempt_iff`, `Cursor.restores_lookahead_iff` — when a failure restores the
  cursor
* `Program.restores_of_fails` — what holds of all runs in order, and of all programs that keep the
  window
* `Program.restores_of_fails_movedWindow` — an attempt that leaves another window
-/

namespace Octets

namespace Cursor

variable {c left : Cursor} {f : Cursor → Bool × Cursor}

/-- What a failure should leave, given the milestone that was armed by then: the same window and
token start, and the same position or, with a milestone, one inside of the window. -/
structure Restores (c left : Cursor) (milestone : Option Nat) : Prop where
  window : c.SameWindow left
  start : left.start = c.start
  pos : milestone = none → left.pos = c.pos
  start_le : left.start ≤ left.pos
  pos_le : left.pos ≤ left.stop

/-! ## Attempts on the cursor -/

theorem attempt_eq_fallBack (fails : (c.attempt f).1 = false) :
    c.attempt f = (false, c.fallBack (f c).2) := by
  rcases tried : f c with ⟨_ | _, after⟩
  · exact attempt_of_false tried
  · rw [attempt_of_true tried] at fails
    cases fails

theorem pos_fallBack_of_unarmed (wf : c.WellFormed) (unarmed : left.milestone = none) :
    (c.fallBack left).pos = c.pos := by
  rw [pos_fallBack wf, unarmed]
  rfl

/-- Falling back keeps whatever window there is, and draws the position into it. -/
theorem restores_fallBack_iff (wf : c.WellFormed) :
    c.Restores (c.fallBack left) left.milestone ↔ c.SameWindow left := by
  refine ⟨fun restored => ⟨restored.window.bytes, restored.window.stop⟩, fun same => ?_⟩
  have inside := wellFormed_fallBack wf same
  exact ⟨⟨same.bytes, same.stop⟩, rfl, pos_fallBack_of_unarmed wf, inside.1, inside.2.1⟩

/-- An attempt that fails restores the cursor if it was left in its window, and only then. -/
theorem restores_attempt_iff (wf : c.WellFormed) (fails : (c.attempt f).1 = false) :
    c.Restores (c.attempt f).2 (f c).2.milestone ↔ c.SameWindow (f c).2 := by
  rw [attempt_eq_fallBack fails]
  exact restores_fallBack_iff wf

/-! ## Lookaheads -/

/-- A lookahead that has gone back comes to the same as one that has failed. -/
theorem lookahead_eq_join_false (fails : (c.lookahead f).1 = none) :
    c.lookahead f = c.join false (f c.fork).2 := by
  have joined : c.lookahead f = c.join (f c.fork).1 (f c.fork).2 := rfl
  rw [joined] at fails ⊢
  unfold join at fails ⊢
  split at fails
  · cases fails
  · rename_i back
    rw [if_neg back]
    rfl

theorem join_false_of_unarmed (unarmed : left.milestone = none) :
    c.join false left = (none, c) := by
  simp [join, milestone?, unarmed]

theorem pos_join_false_of_armed {pos : Nat} (armed : left.milestone? = some pos) :
    (c.join false left).2.pos = max pos c.start := by
  simp [join, armed]

/-- A lookahead falls back to the milestone, wherever its own window has ended. -/
theorem restores_join_false_iff (wf : c.WellFormed) :
    c.Restores (c.join false left).2 left.milestone ↔
      ∀ pos, left.milestone? = some pos → pos ≤ c.stop := by
  have window := sameWindow_join c false left
  have start := (join_false c left).2
  have ordered : c.start ≤ c.stop := Nat.le_trans wf.1 wf.2.1
  -- Only a milestone moves the cursor, and it has been drawn into the window of the copy.
  cases armed : left.milestone? with
  | none =>
    have unarmed : left.milestone = none := Option.map_eq_none_iff.mp armed
    rw [join_false_of_unarmed unarmed]
    exact ⟨nofun, fun _ => ⟨.refl c, rfl, fun _ => rfl, wf.1, wf.2.1⟩⟩
  | some pos =>
    have place := pos_join_false_of_armed (c := c) armed
    constructor
    · rintro restored _ ⟨⟩
      have inside := restored.pos_le
      rw [place, window.stop] at inside
      exact (Nat.max_le.mp inside).1
    · intro inside
      refine ⟨window, start, fun unarmed => ?_, ?_, ?_⟩
      · simp [milestone?, unarmed] at armed
      · rw [start, place]
        exact Nat.le_max_right _ _
      · rw [place, window.stop]
        exact Nat.max_le.mpr ⟨inside pos rfl, ordered⟩

/-- A lookahead that fails restores the cursor unless it has armed a milestone behind the end
of the window. -/
theorem restores_lookahead_iff (wf : c.WellFormed) (fails : (c.lookahead f).1 = none) :
    c.Restores (c.lookahead f).2 (f c.fork).2.milestone ↔
      ∀ pos, (f c.fork).2.milestone? = some pos → pos ≤ c.stop := by
  rw [lookahead_eq_join_false fails]
  exact restores_join_false_iff wf

end Cursor

namespace Program

variable {c : Cursor}

/-- A program may do to the cursor whatever callers can do. If it is tried on the cursor and
fails, its bounds in order, then the token start is given back, and without a milestone the
position; the cursor is restored as a whole if and only if the program has left the window where
it was. If it is tried on a copy and fails, the cursor is restored unless a milestone leads behind
the end of the window. A program that does not move the window always runs in order, and both
always restore the cursor. -/
theorem restores_of_fails (p : Program) (wf : c.WellFormed) :
    (p.InOrder c → c.FallsInOrder (p.run c) → (c.attempt p.run).1 = false →
      let after := (p.run c).2
      let left := (c.attempt p.run).2
      (left.start = c.start ∧ (after.milestone = none → left.pos = c.pos)) ∧
        (c.Restores left after.milestone ↔ c.SameWindow after)) ∧
    (p.InOrder c.fork → c.JoinsInOrder (p.run c.fork) → (c.lookahead p.run).1 = none →
      let after := (p.run c.fork).2
      let left := (c.lookahead p.run).2
      (after.milestone = none → left = c) ∧
        (c.Restores left after.milestone ↔
          ∀ pos, after.milestone? = some pos → pos ≤ c.stop)) ∧
    (p.IsConfined true →
      (p.InOrder c ∧ c.FallsInOrder (p.run c) ∧
        ((c.attempt p.run).1 = false →
          c.Restores (c.attempt p.run).2 (p.run c).2.milestone)) ∧
      p.InOrder c.fork ∧ c.JoinsInOrder (p.run c.fork) ∧
        ((c.lookahead p.run).1 = none →
          c.Restores (c.lookahead p.run).2 (p.run c.fork).2.milestone)) := by
  refine ⟨fun _ _ fails => ?_, fun _ _ fails => ?_, fun confined => ⟨?_, ?_⟩⟩
  · refine ⟨⟨?_, fun unarmed => ?_⟩, Cursor.restores_attempt_iff wf fails⟩
    · rw [Cursor.attempt_eq_fallBack fails]
      rfl
    · rw [Cursor.attempt_eq_fallBack fails]
      exact Cursor.pos_fallBack_of_unarmed wf unarmed
  · refine ⟨fun unarmed => ?_, Cursor.restores_lookahead_iff wf fails⟩
    rw [Cursor.lookahead_eq_join_false fails, Cursor.join_false_of_unarmed unarmed]
  · have same := (wellFormed_run confined wf).2 rfl
    exact ⟨confined.inOrder wf, same.fallsInOrder wf, fun fails =>
      (Cursor.restores_attempt_iff wf fails).mpr same⟩
  · -- The copy is still in the window, and so is a milestone that is drawn into it.
    obtain ⟨kept, same⟩ := wellFormed_run (c := c.fork) confined wf
    refine ⟨confined.inOrder (c := c.fork) wf, kept.joinsInOrder, fun fails => ?_⟩
    refine (Cursor.restores_lookahead_iff wf fails).mpr fun pos armed => ?_
    have inside := Cursor.milestone?_le (Nat.le_trans kept.1 kept.2.1) armed
    rwa [(same rfl).stop] at inside

/-- A token is collected inside of a nested attempt, and a milestone far behind the window is
armed last. In another run the window is drawn in, and a milestone armed inside of it. -/
theorem restores_of_fails_farMilestone :
    let c := Cursor.within (Bytes.ofText "-abc") 1 3
    let inner := call (.take (.literal (Bytes.ofText "a"))) fun _ _ =>
      call .collect fun _ _ => call (.arm 2) fun _ _ => finish false
    let p := speculate inner fun _ _ => call (.arm 9) fun _ _ => finish false
    let q := call (.moveWindow 1 2) fun _ _ => call (.arm 2) fun _ _ => finish false
    (c.WellFormed ∧ (c.attempt p.run).1 = false ∧ (c.lookahead p.run).1 = none ∧
        p.IsConfined true ∧ q.InOrder c ∧ c.FallsInOrder (q.run c) ∧
        (c.attempt q.run).1 = false ∧ q.InOrder c.fork ∧ c.JoinsInOrder (q.run c.fork) ∧
        (c.lookahead q.run).1 = none) ∧
      (c.Restores (c.attempt p.run).2 (some 9) ∧ c.Restores (c.lookahead p.run).2 (some 9)) ∧
        ¬ c.Restores (c.attempt q.run).2 (some 2) ∧ c.Restores (c.lookahead q.run).2 (some 2) := by
  intro c inner p q
  have wf : c.WellFormed := Cursor.wellFormed_within _ _ _
  have confined : p.IsConfined true := by
    simp [p, inner, IsConfined, Command.isPlain, Command.movesWindow]
  have inOrder : q.InOrder c ∧ q.InOrder c.fork := by
    simp [q, InOrder, Command.InOrder]
  have falls : c.FallsInOrder (q.run c) ∧ c.JoinsInOrder (q.run c.fork) := by decide
  obtain ⟨attempt, lookahead⟩ := (restores_of_fails p wf).2.2 confined
  have moved := (restores_of_fails q wf).1 inOrder.1 falls.1 rfl
  have copied := (restores_of_fails q wf).2.1 inOrder.2 falls.2 rfl
  refine ⟨⟨wf, rfl, rfl, confined, inOrder.1, falls.1, rfl, inOrder.2, falls.2, rfl⟩,
    ⟨attempt.2.2 rfl, lookahead.2.2 rfl⟩, fun restored => ?_, copied.2.mpr ?_⟩
  · exact absurd (moved.2.mp restored).stop (by decide)
  · rintro pos ⟨⟩
    decide

/-- The window is drawn in, and no milestone is armed: the attempt fails in order, and the window
stays as it is. -/
theorem restores_of_fails_movedWindow :
    let c := Cursor.ofBytes (Bytes.ofText "abc")
    let p := call (.moveWindow 0 1) fun _ _ => finish false
    (c.WellFormed ∧ c.milestone = none ∧ (p.run c).2.milestone = none) ∧
      (p.InOrder c ∧ c.FallsInOrder (p.run c)) ∧
        (c.attempt p.run).1 = false ∧ c.stop = 3 ∧ (c.attempt p.run).2.stop = 1 :=
  ⟨⟨Cursor.wellFormed_ofBytes _, rfl, rfl⟩, ⟨⟨trivial, trivial⟩, by decide⟩, rfl, rfl, rfl⟩

end Program

end Octets
