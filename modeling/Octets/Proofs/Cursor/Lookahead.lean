import Octets.Proofs.Cursor.Invariant

/-!
# Attempts and lookaheads

Something can be tried on a cursor itself or on a copy of it. Where nothing goes back, both
succeed alike and lead equally far, and both take a failure back to the same place, unless a
milestone was armed. The milestone is drawn into the window that begins with the token, and the
two do not ask for the same token: an attempt on the cursor first gives back the token start
that it had before, while the copy keeps its own. They part where a milestone lies in front of
a token that was begun in between.

## Main definitions

* `Cursor.GoesOn` — a cursor further on in the same window, in the same or a later token
* `Program.GoesForward` — programs that only read on, begin tokens and arm milestones

## Main results

* `Program.goesOn_run` — where such programs lead
* `Program.attempt_lookahead` — when an attempt and a lookahead agree
* `Program.attempt_lookahead_disagree` — a milestone in front of a later token
-/

namespace Octets

/-- The commands that neither go back nor leave the window. -/
def Command.goesForward : Command → Bool
  | retreat _ | seek _ => false
  | command => command.isPlain && !command.movesWindow

namespace Cursor

variable {c d e : Cursor}

/-- The other cursor is further on in the same window, if it has moved at all, and so is its
token. -/
structure GoesOn (c d : Cursor) : Prop where
  window : c.SameWindow d
  start : c.start ≤ d.start
  pos : c.pos ≤ d.pos

theorem GoesOn.refl (c : Cursor) : c.GoesOn c := ⟨.refl c, Nat.le_refl _, Nat.le_refl _⟩

theorem GoesOn.trans (first : c.GoesOn d) (second : d.GoesOn e) : c.GoesOn e :=
  ⟨first.window.trans second.window, Nat.le_trans first.start second.start,
    Nat.le_trans first.pos second.pos⟩

/-! ## What is left of what was tried -/

section Tried

variable {f : Cursor → Bool × Cursor}

theorem attempt_of_true (succeeds : f c = (true, d)) : c.attempt f = (true, d) := by
  simp only [attempt, succeeds]

theorem attempt_of_false (fails : f c = (false, d)) : c.attempt f = (false, c.fallBack d) := by
  simp only [attempt, fails]

theorem lookahead_of_true (succeeds : f c.fork = (true, d)) (ahead : c.pos ≤ d.pos) :
    c.lookahead f = (some (d.pos - c.pos), { c with pos := d.pos }) := by
  simp only [lookahead, succeeds, join, Bool.true_and, decide_eq_true ahead, if_true]

theorem lookahead_of_false (fails : f c.fork = (false, d)) : c.lookahead f = c.join false d := by
  simp only [lookahead, fails]

end Tried

/-- A lookahead that fails reports no distance and gives back the token start. -/
theorem join_false (c d : Cursor) :
    (c.join false d).1 = none ∧ (c.join false d).2.start = c.start := by
  simp only [join, Bool.false_and, Bool.false_eq_true, if_false]
  cases d.milestone? <;> exact ⟨rfl, rfl⟩

/-- An attempt on the cursor falls back to the milestone, drawn into the window that begins with
the token from before. -/
theorem pos_fallBack (wf : c.WellFormed) (d : Cursor) :
    (c.fallBack d).pos = (d.milestone.map fun m => max c.start (min m d.stop)).getD c.pos := by
  have ordered := wf.1
  cases armed : d.milestone with
  | none =>
    simp only [fallBack, milestone?, armed, Option.map_none, Option.getD_none]
    omega
  | some m =>
    simp only [fallBack, milestone?, armed, Option.map_some, Option.getD_some]
    omega

/-- A lookahead falls back to the milestone, drawn into the window that begins with the token of
the copy. -/
theorem pos_join_false (ahead : c.start ≤ d.start) :
    (c.join false d).2.pos = (d.milestone.map fun m => max d.start (min m d.stop)).getD c.pos := by
  cases armed : d.milestone with
  | none => simp [join, milestone?, armed]
  | some m =>
    have behind : c.start ≤ max d.start (min m d.stop) := Nat.le_trans ahead (Nat.le_max_left _ _)
    simp [join, milestone?, armed, Nat.max_eq_left behind]

/-- The two falls lead to the same place unless the milestone lies in front of a token that was
begun in between. The lookahead then stops at that token. -/
theorem pos_join_false_iff (wf : c.WellFormed) (ahead : c.start ≤ d.start)
    (inside : d.start ≤ d.stop) :
    ((c.join false d).2.pos = (c.fallBack d).pos ↔ ∀ m ∈ d.milestone, d.start ≤ max c.start m) ∧
      ((c.join false d).2.pos ≠ (c.fallBack d).pos → (c.join false d).2.pos = d.start) := by
  rw [pos_fallBack wf, pos_join_false ahead]
  cases d.milestone with
  | none => simp
  | some m =>
    simp only [Option.map_some, Option.getD_some, Option.mem_some_iff, forall_eq']
    omega

end Cursor

namespace Command

variable {command : Command} {c : Cursor}

theorem isPlain_of_goesForward (forward : command.goesForward = true) :
    command.isPlain = true ∧ command.movesWindow = false := by
  cases command <;> simp_all [goesForward, isPlain, movesWindow]

/-- A search goes forward, as it begins at the position. -/
theorem goesOn_jumpTo (c : Cursor) (b : UInt8) : c.GoesOn (c.jumpTo b).2 := by
  unfold Cursor.jumpTo
  split
  · exact .refl c
  · rename_i target found
    obtain ⟨distance, _, rfl⟩ := Option.map_eq_some_iff.mp found
    split
    · exact ⟨⟨rfl, rfl⟩, Nat.le_refl _, Nat.le_add_right _ _⟩
    · exact .refl c

theorem goesOn_run (forward : command.goesForward = true) (wf : c.WellFormed) :
    c.GoesOn (command.run c).2 := by
  cases command with
  | take p =>
    cases takes : p.scan c.rest with
    | none =>
      rw [run, Primitive.apply_of_none takes]
      exact .refl c
    | some n =>
      rw [run, Primitive.apply_of_some takes]
      exact ⟨⟨rfl, rfl⟩, Nat.le_refl _, Nat.le_add_right _ _⟩
  | jumpTo b => exact goesOn_jumpTo c b
  | jumpToEnd => exact ⟨⟨rfl, rfl⟩, Nat.le_refl _, wf.2.1⟩
  -- A new token begins behind the old one.
  | collect => exact ⟨⟨rfl, rfl⟩, wf.1, Nat.le_refl _⟩
  | collectText => exact ⟨⟨rfl, rfl⟩, wf.1, Nat.le_refl _⟩
  | beginToken => exact ⟨⟨rfl, rfl⟩, wf.1, Nat.le_refl _⟩
  | retreat n => cases forward
  | seek pos => cases forward
  | moveWindow start stop => cases forward
  | rewind => cases forward
  | load buffer => cases forward
  | speculate body => cases forward
  | lookahead body => cases forward
  | keepProgress body => cases forward
  | _ => exact ⟨⟨rfl, rfl⟩, Nat.le_refl _, Nat.le_refl _⟩

end Command

namespace Program

variable {p : Program} {c : Cursor}

/-- The programs that only go forward: they read, begin tokens and arm milestones, and keep the
progress of what they try. -/
def GoesForward : Program → Prop
  | finish _ => True
  | call command next =>
    command.goesForward = true ∧ ∀ reply after, (next reply after).GoesForward
  | keepProgress body next =>
    body.GoesForward ∧ ∀ succeeded after, (next succeeded after).GoesForward
  | speculate _ _ | lookahead _ _ => False

theorem GoesForward.isConfined (forward : p.GoesForward) (speculating : Bool) :
    p.IsConfined speculating := by
  induction p with
  | finish succeeded => trivial
  | call command next ih =>
    obtain ⟨plain, stays⟩ := Command.isPlain_of_goesForward forward.1
    exact ⟨plain, fun _ => stays, fun reply after => ih _ _ (forward.2 reply after)⟩
  | keepProgress body next ihBody ihNext =>
    exact ⟨ihBody forward.1, fun succeeded after => ihNext _ _ (forward.2 succeeded after)⟩
  | speculate body next => cases forward
  | lookahead body next => cases forward

/-- A program that goes forward ends further on. -/
theorem goesOn_run (forward : p.GoesForward) (wf : c.WellFormed) : c.GoesOn (p.run c).2 := by
  induction p generalizing c with
  | finish succeeded => exact .refl c
  | call command next ih =>
    have plain := (Command.isPlain_of_goesForward forward.1).1
    have first := Command.goesOn_run forward.1 wf
    exact first.trans (ih _ _ (forward.2 _ _) (Command.wellFormed_run plain wf))
  | keepProgress body next ihBody ihNext =>
    have first := ihBody forward.1 wf
    have wf' := wellFormed_keepProgress (wellFormed_run (forward.1.isConfined true) wf).1
    -- Keeping the progress arms the milestone, and moves nothing.
    have kept : c.GoesOn (c.keepProgress body.run).2 := by
      unfold Cursor.keepProgress Cursor.keep
      generalize body.run c = attempted at first ⊢
      obtain ⟨_ | _, after⟩ := attempted
      all_goals exact ⟨⟨first.window.1, first.window.2⟩, first.start, first.pos⟩
    exact kept.trans (ihNext _ _ (forward.2 _ _) wf')
  | speculate body next => cases forward
  | lookahead body next => cases forward

/-- An attempt with a program that goes forward and a lookahead with it agree on whether it
succeeds, and on how far it then leads. If it fails, both give back the token start, and both
fall back to the same position if and only if no milestone lies in front of a token that the
program has begun; otherwise the lookahead stops at that token. -/
theorem attempt_lookahead (forward : p.GoesForward) (wf : c.WellFormed)
    (unarmed : c.milestone = none) :
    let after := (p.run c).2
    let attempted := c.attempt p.run
    let looked := c.lookahead p.run
    looked.1.isSome = attempted.1 ∧
      (attempted.1 = true →
        looked.2.pos = attempted.2.pos ∧ looked.1 = some (attempted.2.pos - c.pos)) ∧
      (attempted.1 = false →
        looked.2.start = attempted.2.start ∧
          (looked.2.pos = attempted.2.pos ↔ ∀ m ∈ after.milestone, after.start ≤ max c.start m) ∧
          (looked.2.pos ≠ attempted.2.pos → looked.2.pos = after.start)) := by
  intro after attempted looked
  have goesOn : c.GoesOn after := goesOn_run forward wf
  have kept := (wellFormed_run (forward.isConfined true) wf).1
  have inside : after.start ≤ after.stop := Nat.le_trans kept.1 kept.2.1
  -- Without a milestone, the copy is the cursor itself.
  have fork : c.fork = c := by rw [Cursor.fork, ← unarmed]
  rcases ran : p.run c with ⟨_ | _, last⟩
  · have fell : attempted = (false, c.fallBack last) := Cursor.attempt_of_false ran
    have back : looked = c.join false last := Cursor.lookahead_of_false (fork.symm ▸ ran)
    obtain rfl : after = last := congrArg Prod.snd ran
    obtain ⟨nowhere, start⟩ := Cursor.join_false c after
    have places := Cursor.pos_join_false_iff wf goesOn.start inside
    rw [fell, back, nowhere]
    exact ⟨rfl, fun succeeds => absurd succeeds Bool.false_ne_true, fun _ => ⟨start, places⟩⟩
  · have moved : attempted = (true, last) := Cursor.attempt_of_true ran
    obtain rfl : after = last := congrArg Prod.snd ran
    have joined : looked = (some (after.pos - c.pos), { c with pos := after.pos }) :=
      Cursor.lookahead_of_true (fork.symm ▸ ran) goesOn.pos
    rw [moved, joined]
    exact ⟨rfl, fun _ => ⟨rfl, rfl⟩, fun fails => absurd fails.symm Bool.false_ne_true⟩

/-- A failed test keeps the byte behind the token that was begun in front of it, and a failure
further on falls back to there, on the cursor and on a copy. -/
theorem attempt_lookahead_keptProgress :
    let c := Cursor.within (Bytes.ofText "-aab") 1 4
    let test := call (.take (.literal (Bytes.ofText "x"))) fun reply _ => finish !reply.failed
    let p := call (.take (.literal (Bytes.ofText "a"))) fun _ _ => call .beginToken fun _ _ =>
      keepProgress test fun _ _ => call (.take (.byte fun _ => true)) fun _ _ => finish false
    (p.GoesForward ∧ c.WellFormed ∧ c.milestone = none ∧ (c.attempt p.run).1 = false) ∧
      (c.lookahead p.run).1.isSome = false ∧
        (c.lookahead p.run).2.start = (c.attempt p.run).2.start ∧
          (c.lookahead p.run).2.pos = (c.attempt p.run).2.pos := by
  intro c test p
  have forward : p.GoesForward := by
    simp [p, test, GoesForward, Command.goesForward, Command.isPlain, Command.movesWindow]
  have wf : c.WellFormed := Cursor.wellFormed_within _ _ _
  have fails : (c.attempt p.run).1 = false := rfl
  obtain ⟨same, _, back⟩ := attempt_lookahead forward wf rfl
  obtain ⟨start, agree, _⟩ := back fails
  exact ⟨⟨forward, wf, rfl, fails⟩, same.trans fails, start, agree.mpr (by decide +kernel)⟩

/-- A milestone at the front, in front of a token that begins behind the first byte: an attempt
falls back to the milestone, a lookahead stops at the token. -/
theorem attempt_lookahead_disagree :
    let c := Cursor.ofBytes (Bytes.ofText "ab")
    let p := call (.take (.literal (Bytes.ofText "a"))) fun _ _ => call .beginToken fun _ _ =>
      call (.arm 0) fun _ _ => finish false
    (p.GoesForward ∧ c.WellFormed ∧ c.milestone = none) ∧
      ((c.attempt p.run).1 = false ∧ (c.lookahead p.run).1 = none) ∧
        (c.attempt p.run).2.pos = 0 ∧ (c.lookahead p.run).2.pos = 1 := by
  intro c p
  have forward : p.GoesForward := by
    simp [p, GoesForward, Command.goesForward, Command.isPlain, Command.movesWindow]
  exact ⟨⟨forward, Cursor.wellFormed_ofBytes _, rfl⟩, ⟨rfl, rfl⟩, rfl, rfl⟩

end Program

end Octets
