import Octets.Form.Body
import Octets.Proofs.Stream.Chunking

/-!
# Form bodies read in chunks

How the stream of a form body is cut into chunks does not show in what is read,
whichever of the two grammars the body is in and whether or not it fits: feeding
the chunks leaves the same reader as feeding the whole stream, or ends in the
same failure, and so does the end of the body behind them.

## Main definitions

* `Form.Ending`, `Reader.conclude` — what a body comes to when it is fed and then
  finished

## Main results

* `Reader.settle_feedAll` — the chunks leave the reader that the whole stream
  leaves
* `Reader.conclude_feedAll` — finished, they come to the same
-/

namespace Octets.Form

/-- What a body comes to. -/
inductive Ending where
  /-- A byte of it does not fit. -/
  | refused (failure : Failure)
  /-- It may not end where it ends. -/
  | unfinished (failure : Failure)
  /-- It has been read: whether its own bytes said where it ends, how many of them
  were consumed, the boundary, and what it says. -/
  | finished (wasDone : Bool) (consumed : Nat) (boundary : Option Bytes) (form : Form)

namespace Reader

open Stream.Grammar (settle)

variable {r : Reader}

/-- The end of a body that has been fed. -/
def conclude (run : Reader × Except Failure Bool) : Ending :=
  match run.2 with
  | .error failure => .refused failure
  | .ok _ =>
    match run.1.finish with
    | (_, .error failure) => .unfinished failure
    | (after, .ok form) => .finished run.1.isDone after.consumed after.boundary form

/-- A reader feeds its session. -/
theorem feed_session (r : Reader) (chunk : Bytes) :
    ((r.feed chunk).1.session, (r.feed chunk).2) = grammar.feed r.session chunk := rfl

theorem feedAll_session (r : Reader) (chunks : List Bytes) :
    ((r.feedAll chunks).1.session, (r.feedAll chunks).2) = grammar.feedAll r.session chunks := by
  induction chunks generalizing r with
  | nil => rfl
  | cons chunk chunks ih =>
    rw [feedAll, Stream.Grammar.feedAll, ← feed_session r chunk]
    rcases r.feed chunk with ⟨next, failure | answer⟩
    · rfl
    · exact ih next

/-- Without a limit on tokens, the chunks leave the session that the whole stream
leaves. -/
theorem settle_feedAll (unlimited : r.session.limit = none) (chunks : List Bytes) :
    settle ((r.feedAll chunks).1.session, (r.feedAll chunks).2) =
      settle (grammar.feed r.session chunks.flatten) := by
  rw [feedAll_session, Stream.Grammar.settle_feedAll unlimited]

/-- What a body comes to depends on the session that it leaves. -/
theorem conclude_eq_match_settle (run : Reader × Except Failure Bool) :
    conclude run =
      match settle (run.1.session, run.2) with
      | .error failure => .refused failure
      | .ok session => conclude (⟨session⟩, .ok true) := by
  obtain ⟨r, failure | answer⟩ := run <;> rfl

/-- Chunks fed one after the other and then finished come to what the whole
stream comes to. -/
theorem conclude_feedAll (capacity : Nat) (chunks : List Bytes) :
    let fresh := start ⟨capacity, none⟩
    conclude (fresh.feedAll chunks) = conclude (fresh.feed chunks.flatten) := by
  intro fresh
  -- What a body comes to is read off the settled session, and that is the same.
  have same := settle_feedAll (r := fresh) rfl chunks
  rw [conclude_eq_match_settle, same, ← feed_session, ← conclude_eq_match_settle]

end Reader

end Octets.Form
