import Octets.Proofs.Cursor.Program
import Octets.Proofs.Cursor.Transaction
import Octets.Stream.Buffer

/-!
# Cursors stay in their window

Token start, position, window end and length of the bytes ascend in every cursor that comes
up while a program runs, before and after each of its operations and inside of everything
that it tries. So the unread bytes and the token are always proper slices of the byte string.
A milestone may be armed anywhere; it is drawn into the window only when a speculation fails,
and by then the bounds between which it is drawn are in order.

The window is all that a speculation must leave alone: a failed one gives back the token start
and the position, and these fit no other window. Outside of speculations it may be moved.

## Main definitions

* `Stream.Buffer.Reachable`, `Cursor.IsFresh` — where cursors come from
* `Cursor.SameWindow` — cursors with the same window
* `Program.DrawsInOrder` — a speculation whose milestone has a place to be drawn to

## Main results

* `Command.wellFormed_run` — what one operation keeps
* `Program.wellFormed_run` — what a whole program keeps
* `Program.wellFormed_of_comesTo` — all cursors that come up are well formed
-/

namespace Octets

/-! ## Where cursors come from -/

namespace Stream.Buffer

/-- The buffers that come about from the empty one by appending chunks and recording where
reading has left off. -/
inductive Reachable : Buffer → Prop
  | empty : Reachable empty
  | append {buffer : Buffer} (chunk : Bytes) : Reachable buffer → Reachable (buffer.append chunk)
  | commit {buffer : Buffer} (start pos : Nat) :
      Reachable buffer → Reachable (buffer.commit start pos)

/-- The open token begins before the position, and both lie in the retained bytes. -/
theorem Reachable.ascends {buffer : Buffer} (reachable : buffer.Reachable) :
    buffer.start ≤ buffer.pos ∧ buffer.pos ≤ buffer.bytes.length := by
  induction reachable with
  | empty => exact ⟨Nat.le_refl _, Nat.le_refl _⟩
  | @append buffer chunk _ ih =>
    refine ⟨Nat.zero_le _, ?_⟩
    simp only [Buffer.append, List.length_append, List.length_drop]
    omega
  | commit start pos _ _ =>
    simp only [Buffer.commit]
    omega

end Stream.Buffer

namespace Cursor

/-- The cursors with which reading begins: over a whole byte string, over a window of it
with any bounds, or where reading has left off in a stream. -/
inductive IsFresh : Cursor → Prop
  | ofBytes (bytes : Bytes) : IsFresh (.ofBytes bytes)
  | within (bytes : Bytes) (start stop : Nat) : IsFresh (.within bytes start stop)
  | ofBuffer {buffer : Stream.Buffer} : buffer.Reachable → IsFresh buffer.cursor

theorem IsFresh.wellFormed {c : Cursor} (fresh : c.IsFresh) : c.WellFormed := by
  cases fresh with
  | ofBytes bytes => exact wellFormed_ofBytes bytes
  | within bytes start stop => exact wellFormed_within bytes start stop
  | @ofBuffer buffer reachable =>
    obtain ⟨ascend, inside⟩ := reachable.ascends
    have drawn : min buffer.pos buffer.bytes.length = buffer.pos := Nat.min_eq_left inside
    refine ⟨?_, Nat.min_le_right _ _, Nat.le_refl _⟩
    show buffer.start ≤ min buffer.pos buffer.bytes.length
    rw [drawn]
    exact ascend

/-! ## Windows -/

variable {c before after : Cursor}

/-- The other cursor has the same window of the same bytes. -/
structure SameWindow (c d : Cursor) : Prop where
  bytes : d.bytes = c.bytes
  stop : d.stop = c.stop

theorem SameWindow.refl (c : Cursor) : c.SameWindow c := ⟨rfl, rfl⟩

theorem SameWindow.trans {d e : Cursor} (first : c.SameWindow d) (second : d.SameWindow e) :
    c.SameWindow e :=
  ⟨second.bytes.trans first.bytes, second.stop.trans first.stop⟩

/-- The end of the window lies in the bytes, wherever in it the cursor stands. -/
theorem SameWindow.stop_le {d : Cursor} (same : c.SameWindow d) (wf : c.WellFormed) :
    d.stop ≤ d.bytes.length := by
  rw [same.bytes, same.stop]
  exact wf.2.2

/-! ## Places to fall back to -/

/-- A milestone that is drawn into a window lies in it if the bounds are in order. -/
theorem milestone?_le {pos : Nat} (ordered : c.start ≤ c.stop) (armed : c.milestone? = some pos) :
    pos ≤ c.stop := by
  obtain ⟨milestone, _, rfl⟩ := Option.map_eq_some_iff.mp armed
  exact Nat.max_le.mpr ⟨ordered, Nat.min_le_right _ _⟩

theorem wellFormed_fallBack (wf : before.WellFormed) (same : before.SameWindow after) :
    (before.fallBack after).WellFormed := by
  have ordered : before.start ≤ after.stop := same.stop ▸ Nat.le_trans wf.1 wf.2.1
  refine ⟨Nat.le_max_right _ _, ?_, same.stop_le wf⟩
  -- The milestone is drawn between the token start from before and the end of the window.
  show max (({ after with start := before.start } : Cursor).milestone?.getD before.pos)
    before.start ≤ after.stop
  apply Nat.max_le.mpr
  refine ⟨?_, ordered⟩
  cases armed : ({ after with start := before.start } : Cursor).milestone? with
  | none => exact same.stop ▸ wf.2.1
  | some pos => exact milestone?_le (c := { after with start := before.start }) ordered armed

theorem wellFormed_join {succeeded : Bool} (wf : before.WellFormed) (wf' : after.WellFormed)
    (same : before.SameWindow after) : (before.join succeeded after).2.WellFormed := by
  obtain ⟨start_le, pos_le, stop_le⟩ := wf
  unfold join
  split
  · rename_i forward
    have forward : before.pos ≤ after.pos := of_decide_eq_true (Bool.and_eq_true_iff.mp forward).2
    exact ⟨Nat.le_trans start_le forward, same.stop ▸ wf'.2.1, stop_le⟩
  · split
    · rename_i pos armed
      have inside := milestone?_le (Nat.le_trans wf'.1 wf'.2.1) armed
      refine ⟨Nat.le_max_right _ _, ?_, stop_le⟩
      exact Nat.max_le.mpr ⟨same.stop ▸ inside, Nat.le_trans start_le pos_le⟩
    · exact ⟨start_le, pos_le, stop_le⟩

theorem sameWindow_join (before : Cursor) (succeeded : Bool) (after : Cursor) :
    before.SameWindow (before.join succeeded after).2 := by
  unfold join
  split
  · exact ⟨rfl, rfl⟩
  · split <;> exact ⟨rfl, rfl⟩

end Cursor

/-! ## Operations -/

namespace Command

variable {command : Command} {c : Cursor}

theorem wellFormed_apply (p : Primitive) (wf : c.WellFormed) : (p.apply c).2.WellFormed := by
  cases takes : p.scan c.rest with
  | none => rwa [Primitive.apply_of_none takes]
  | some n =>
    rw [Primitive.apply_of_some takes]
    exact wf.advance (p.isBounded_scan _ _ takes)

/-- No operation leaves the window. -/
theorem wellFormed_run (plain : command.isPlain = true) (wf : c.WellFormed) :
    (command.run c).2.WellFormed := by
  have ⟨start_le, pos_le, stop_le⟩ := wf
  cases command with
  | take p => exact wellFormed_apply p wf
  | jumpToEnd => exact ⟨Nat.le_trans start_le pos_le, Nat.le_refl _, stop_le⟩
  | jumpTo b =>
    simp only [run, Cursor.jumpTo]
    split
    · exact wf
    · split
      · rename_i target _ inside
        exact ⟨inside.1, Nat.le_of_lt inside.2, stop_le⟩
      · exact wf
  | collect => exact ⟨Nat.le_refl _, pos_le, stop_le⟩
  | collectText => exact ⟨Nat.le_refl _, pos_le, stop_le⟩
  | beginToken => exact ⟨Nat.le_refl _, pos_le, stop_le⟩
  | retreat n =>
    refine ⟨Nat.le_max_right _ _, ?_, stop_le⟩
    exact Nat.max_le.mpr ⟨Nat.le_trans (Nat.sub_le _ _) pos_le, Nat.le_trans start_le pos_le⟩
  | seek pos => exact ⟨Nat.min_le_right _ _, Nat.min_le_right _ _, stop_le⟩
  | moveWindow start stop => exact Cursor.wellFormed_within c.bytes start stop
  | rewind => exact Cursor.wellFormed_ofBytes c.bytes
  | load buffer => exact Cursor.wellFormed_ofBytes buffer
  | speculate body => cases plain
  | lookahead body => cases plain
  | keepProgress body => cases plain
  -- The others report on the cursor, or arm a milestone, which may be anywhere.
  | _ => exact wf

theorem sameWindow_run (plain : command.isPlain = true) (stays : command.movesWindow = false)
    (c : Cursor) : c.SameWindow (command.run c).2 := by
  cases command with
  | take p =>
    cases takes : p.scan c.rest with
    | none =>
      rw [run, Primitive.apply_of_none takes]
      exact .refl c
    | some n =>
      rw [run, Primitive.apply_of_some takes]
      exact ⟨rfl, rfl⟩
  | jumpTo b =>
    simp only [run, Cursor.jumpTo]
    split
    · exact .refl c
    · split <;> exact ⟨rfl, rfl⟩
  | moveWindow start stop => cases stays
  | rewind => cases stays
  | load buffer => cases stays
  | speculate body => cases plain
  | lookahead body => cases plain
  | keepProgress body => cases plain
  | _ => exact ⟨rfl, rfl⟩

end Command

/-! ## Programs -/

namespace Program

variable {p q : Program} {c d : Cursor} {speculating : Bool}

/-- A program that begins with a speculation draws a milestone between bounds that are in
order, if the speculation should fail: the token start to which the cursor is given back, and
the end of the window in which the attempt has left it. -/
def DrawsInOrder : Program → Cursor → Prop
  | speculate body _, c => c.start ≤ (body.run c).2.stop
  | lookahead body _, c => (body.run c.fork).2.start ≤ (body.run c.fork).2.stop
  | _, _ => True

/-- Behind a speculation the cursor is well formed, and in the same window, if the attempt has
kept it so. -/
theorem wellFormed_attempt {body : Program} (wf : c.WellFormed)
    (kept : (body.run c).2.WellFormed) (same : c.SameWindow (body.run c).2) :
    (c.attempt body.run).2.WellFormed ∧ c.SameWindow (c.attempt body.run).2 := by
  unfold Cursor.attempt
  generalize body.run c = attempted at kept same ⊢
  obtain ⟨_ | _, after⟩ := attempted
  · exact ⟨Cursor.wellFormed_fallBack wf same, same.bytes, same.stop⟩
  · exact ⟨kept, same⟩

theorem wellFormed_lookahead {body : Program} (wf : c.WellFormed)
    (kept : (body.run c.fork).2.WellFormed) (same : c.fork.SameWindow (body.run c.fork).2) :
    (c.lookahead body.run).2.WellFormed ∧ c.SameWindow (c.lookahead body.run).2 :=
  ⟨Cursor.wellFormed_join wf kept ⟨same.bytes, same.stop⟩, Cursor.sameWindow_join c _ _⟩

theorem wellFormed_keepProgress {body : Program} (kept : (body.run c).2.WellFormed) :
    (c.keepProgress body.run).2.WellFormed := by
  unfold Cursor.keepProgress Cursor.keep
  generalize body.run c = attempted at kept ⊢
  obtain ⟨_ | _, after⟩ := attempted <;> exact kept

theorem sameWindow_keepProgress {body : Program} (same : c.SameWindow (body.run c).2) :
    c.SameWindow (c.keepProgress body.run).2 := by
  unfold Cursor.keepProgress Cursor.keep
  generalize body.run c = attempted at same ⊢
  obtain ⟨_ | _, after⟩ := attempted <;> exact ⟨same.bytes, same.stop⟩

/-- A program keeps the cursor well formed. Inside of a speculation it also keeps the
window. -/
theorem wellFormed_run (confined : p.IsConfined speculating) (wf : c.WellFormed) :
    (p.run c).2.WellFormed ∧ (speculating = true → c.SameWindow (p.run c).2) := by
  induction p generalizing c speculating with
  | finish succeeded => exact ⟨wf, fun _ => .refl c⟩
  | call command next ih =>
    obtain ⟨plain, stays, later⟩ := confined
    have wf' := Command.wellFormed_run plain wf
    obtain ⟨kept, same⟩ := ih _ _ (later _ _) wf'
    refine ⟨kept, fun inside => ?_⟩
    exact (Command.sameWindow_run plain (stays inside) c).trans (same inside)
  | speculate body next ihBody ihNext =>
    obtain ⟨inner, later⟩ := confined
    obtain ⟨kept, same⟩ := ihBody inner wf
    obtain ⟨wf', same'⟩ := wellFormed_attempt wf kept (same rfl)
    obtain ⟨kept, same⟩ := ihNext _ _ (later _ _) wf'
    exact ⟨kept, fun inside => same'.trans (same inside)⟩
  | lookahead body next ihBody ihNext =>
    obtain ⟨inner, later⟩ := confined
    obtain ⟨kept, same⟩ := ihBody (c := c.fork) inner wf
    obtain ⟨wf', same'⟩ := wellFormed_lookahead wf kept (same rfl)
    obtain ⟨kept, same⟩ := ihNext _ _ (later _ _) wf'
    exact ⟨kept, fun inside => same'.trans (same inside)⟩
  | keepProgress body next ihBody ihNext =>
    obtain ⟨inner, later⟩ := confined
    obtain ⟨kept, same⟩ := ihBody inner wf
    obtain ⟨kept', same'⟩ := ihNext _ _ (later _ _) (wellFormed_keepProgress kept)
    exact ⟨kept', fun inside => (sameWindow_keepProgress (same inside)).trans (same' inside)⟩

/-- What a confined program comes to is confined, and its cursor well formed. -/
theorem ComesTo.wellFormed (comes : p.ComesTo c q d) (confined : p.IsConfined speculating)
    (wf : c.WellFormed) : d.WellFormed ∧ ∃ speculating, q.IsConfined speculating := by
  induction comes generalizing speculating with
  | here p c => exact ⟨wf, speculating, confined⟩
  | behindCall _ ih => exact ih (confined.2.2 _ _) (Command.wellFormed_run confined.1 wf)
  | insideAttempt _ ih => exact ih confined.1 wf
  | behindAttempt _ ih =>
    obtain ⟨kept, same⟩ := wellFormed_run confined.1 wf
    exact ih (confined.2 _ _) (wellFormed_attempt wf kept (same rfl)).1
  | insideLookahead _ ih => exact ih confined.1 wf
  | @behindLookahead _ _ _ c _ _ ih =>
    obtain ⟨kept, same⟩ := wellFormed_run (c := c.fork) confined.1 wf
    exact ih (confined.2 _ _) (wellFormed_lookahead wf kept (same rfl)).1
  | insideKeep _ ih => exact ih confined.1 wf
  | behindKeep _ ih =>
    have kept := (wellFormed_run confined.1 wf).1
    exact ih (confined.2 _ _) (wellFormed_keepProgress kept)

/-- The speculation with which a confined program begins has a place to fall back to. -/
theorem IsConfined.drawsInOrder (confined : q.IsConfined speculating) (wf : d.WellFormed) :
    q.DrawsInOrder d := by
  cases q with
  | speculate body next =>
    have same := (wellFormed_run confined.1 wf).2 rfl
    show d.start ≤ (body.run d).2.stop
    rw [same.stop]
    exact Nat.le_trans wf.1 wf.2.1
  | lookahead body next =>
    have kept := (wellFormed_run (c := d.fork) confined.1 wf).1
    exact Nat.le_trans kept.1 kept.2.1
  | _ => trivial

/-- From a cursor with which reading begins, a program whose speculations leave the window
where it is comes to nothing but well-formed cursors, and a speculation that fails draws a
milestone between bounds that are in order. -/
theorem wellFormed_of_comesTo (fresh : c.IsFresh) (confined : p.IsConfined false)
    (comes : p.ComesTo c q d) : d.WellFormed ∧ q.DrawsInOrder d := by
  obtain ⟨wf, _, confined⟩ := comes.wellFormed confined fresh.wellFormed
  exact ⟨wf, confined.drawsInOrder wf⟩

/-- A milestone far behind the window is drawn to its end when the attempt that has armed it
fails; only then is the window moved. -/
theorem wellFormed_of_comesTo_farMilestone :
    let c := Cursor.within (Bytes.ofText "xabc") 1 3
    let body := call (.take (.literal (Bytes.ofText "a"))) fun _ _ =>
      call (.arm 9) fun _ _ => finish false
    let next := fun succeeded (_ : Cursor) => call (.moveWindow 2 4) fun _ _ => finish succeeded
    let fallen : Cursor := ⟨Bytes.ofText "xabc", 1, 3, 3, none⟩
    (c.IsFresh ∧ (speculate body next).IsConfined false ∧
      (speculate body next).ComesTo c (next false fallen) fallen) ∧
        fallen.WellFormed ∧ (speculate body next).DrawsInOrder c := by
  intro c body next fallen
  have fresh : c.IsFresh := .within _ _ _
  have confined : (speculate body next).IsConfined false := by
    simp [body, next, IsConfined, Command.isPlain, Command.movesWindow]
  have comes : (speculate body next).ComesTo c (next false fallen) fallen :=
    .behindAttempt (.here _ _)
  refine ⟨⟨fresh, confined, comes⟩, ?_, ?_⟩
  · exact (wellFormed_of_comesTo fresh confined comes).1
  · exact (wellFormed_of_comesTo fresh confined (.here _ _)).2

end Program

end Octets
