import Octets.Proofs.Stream.Chunking
import Octets.Request.Head

/-!
# Request heads read in chunks

How the stream of a request head is cut into chunks does not show in what is
read: feeding the chunks ends in the same report, or in the same failure, as
feeding the whole stream. Only the index of the body depends on the cuts. It
counts from the chunk in which the head was completed.

## Main definitions

* `Head.Report`, `Reader.report` — what a reader shows once feeding has ended

## Main results

* `Reader.report_feedAll` — the chunks end as the whole stream does
-/

namespace Octets.Head

/-- What a reader of heads shows once feeding has ended. -/
structure Report where
  isDone : Bool
  head : Head
  consumed : Nat
  bodyOffset : Option Nat

namespace Reader

open Stream.Grammar (settle)

variable {r next : Reader}

/-- What is shown at the end of a feeding, or the failure that ended it. -/
def report (run : Reader × Except Failure Bool) : Except Failure Report :=
  run.2.map fun _ => ⟨run.1.isDone, run.1.head, run.1.consumed, run.1.bodyOffset⟩

/-! ## The session of a reader -/

/-- A reader feeds its session. -/
theorem feed_session (r : Reader) (chunk : Bytes) :
    ((r.feed chunk).1.session, (r.feed chunk).2) = grammar.feed r.session chunk := by
  unfold feed feedWindow
  split
  · rename_i done
    exact (Stream.Grammar.feed_of_done done chunk).symm
  · rfl

theorem settle_of_feed {chunk : Bytes} {answer : Bool}
    (feeding : r.feed chunk = (next, .ok answer)) :
    settle (grammar.feed r.session chunk) = .ok next.session := by
  rw [← feed_session, feeding]
  rfl

theorem feedAll_session (r : Reader) (chunks : List Bytes) :
    ((r.feedAll chunks).1.session, (r.feedAll chunks).2) = grammar.feedAll r.session chunks := by
  induction chunks generalizing r with
  | nil => rfl
  | cons chunk chunks ih =>
    rw [feedAll, Stream.Grammar.feedAll, ← feed_session r chunk]
    rcases r.feed chunk with ⟨next, failure | answer⟩
    · rfl
    · exact ih next

/-- What is shown is read off the session. -/
theorem report_eq_map_settle (run : Reader × Except Failure Bool) :
    report run = (settle (run.1.session, run.2)).map fun s =>
      ⟨grammar.isDone s.memory, s.memory.head, s.consumed,
        if grammar.isDone s.memory then some s.consumed else none⟩ := by
  obtain ⟨r, failure | answer⟩ := run <;> rfl

/-! ## The end of the head -/

theorem feedAll_of_done (done : r.isDone = true) (chunks : List Bytes) :
    r.feedAll chunks = (r, .ok true) := by
  induction chunks with
  | nil => rw [feedAll, done]
  | cons chunk chunks ih =>
    have same : r.feed chunk = (r, .ok true) := by simp [feed, feedWindow, done]
    simp only [feedAll, same, ih]

/-- Once the head is complete, more chunks change nothing. -/
theorem feedAll_append_of_done {chunks : List Bytes} (done : (r.feedAll chunks).1.isDone = true)
    (unlimited : r.session.limit = none) (more : List Bytes) :
    r.feedAll (chunks ++ more) = r.feedAll chunks := by
  induction chunks generalizing r with
  | nil =>
    have done : r.isDone = true := done
    rw [List.nil_append, feedAll_of_done done, feedAll_of_done done]
  | cons chunk chunks ih =>
    simp only [List.cons_append, feedAll] at done ⊢
    rcases feeding : r.feed chunk with ⟨next, failure | answer⟩
    · rfl
    · simp only [feeding] at done ⊢
      exact ih done (Stream.Grammar.limit_of_settle_feed unlimited (settle_of_feed feeding))

/-- The index of the body counts the bytes that the completing chunk gave. -/
theorem bodyIndex_feed (pending : r.isDone = false) {chunk : Bytes}
    (feeding : r.feed chunk = (next, .ok true)) :
    next.bodyIndex = some (next.consumed - r.consumed) := by
  unfold feed feedWindow at feeding
  rw [if_neg (by simp [pending])] at feeding
  cases fed : grammar.feedWindow r.session chunk 0 chunk.length with
  | mk session answer =>
    simp only [fed, Prod.mk.injEq] at feeding
    obtain ⟨rfl, rfl⟩ := feeding
    simp [consumed]

/-- A head that gets complete does so in one of the chunks. All chunks before it
are consumed whole. -/
theorem exists_completing_chunk (unlimited : r.session.limit = none) (pending : r.isDone = false)
    {chunks : List Bytes} (done : (r.feedAll chunks).1.isDone = true) :
    ∃ before last after, chunks = before ++ last :: after ∧
      (r.feedAll before).1.isDone = false ∧ (r.feedAll (before ++ [last])).1.isDone = true ∧
      ∃ index, (r.feedAll chunks).1.bodyIndex = some index ∧
        (r.feedAll chunks).1.consumed = r.consumed + before.flatten.length + index := by
  induction chunks generalizing r with
  | nil => exact absurd done (by simp [feedAll, pending])
  | cons chunk chunks ih =>
    have session := feed_session r chunk
    rcases feeding : r.feed chunk with ⟨next, failure | answer⟩
    · rw [feeding] at session
      have refused : next.isDone = false :=
        Stream.Grammar.pending_of_failed_feed unlimited session.symm
      simp [feedAll, feeding, refused] at done
    have settled := settle_of_feed feeding
    have answered : answer = next.isDone := by
      have answers := Stream.Grammar.feed_answer grammar r.session chunk
      rw [settled, ← session, feeding] at answers
      exact Except.ok.inj answers
    have rest (more : List Bytes) : r.feedAll (chunk :: more) = next.feedAll more := by
      simp only [feedAll, feeding]
    -- Either this chunk completes the head, or it is consumed whole.
    cases complete : next.isDone with
    | true =>
      rw [answered, complete] at feeding
      have index := bodyIndex_feed pending feeding
      have grown : r.consumed ≤ next.consumed :=
        Stream.Grammar.consumed_le_of_settle_feed unlimited settled
      refine ⟨[], chunk, chunks, rfl, pending, ?_, next.consumed - r.consumed, ?_, ?_⟩
      · rw [List.nil_append, rest]
        exact complete
      · rw [rest, feedAll_of_done complete, index]
      · rw [rest, feedAll_of_done complete]
        simp only [List.flatten_nil, List.length_nil]
        omega
    | false =>
      have whole : next.consumed = r.consumed + chunk.length :=
        Stream.Grammar.consumed_feed_of_pending unlimited settled complete
      obtain ⟨before, last, after, cut, open', closed, index, atIndex, count⟩ :=
        ih (Stream.Grammar.limit_of_settle_feed unlimited settled) complete (rest chunks ▸ done)
      refine ⟨chunk :: before, last, after, by rw [cut, List.cons_append], ?_, ?_, index, ?_, ?_⟩
      · rw [rest, open']
      · rw [List.cons_append, rest, closed]
      · rw [rest, atIndex]
      · rw [rest, count, whole, List.flatten_cons, List.length_append]
        omega

/-! ## Independence of the cuts -/

/-- Chunks fed one after the other end as the whole stream does, in the same
failure or showing the same. If the head gets complete, the index of its body
counts from the chunk that completes it, and more chunks change nothing. -/
theorem report_feedAll (capacity : Nat) (chunks more : List Bytes) :
    let fresh := start ⟨capacity, none⟩
    let cut := fresh.feedAll chunks
    report cut = report (fresh.feed chunks.flatten) ∧
      (cut.1.isDone = true →
        (∃ before last after, chunks = before ++ last :: after ∧
          (fresh.feedAll before).1.isDone = false ∧
          (fresh.feedAll (before ++ [last])).1.isDone = true ∧
          ∃ index, cut.1.bodyIndex = some index ∧
            cut.1.bodyOffset = some (before.flatten.length + index)) ∧
        fresh.feedAll (chunks ++ more) = cut) := by
  intro fresh cut
  have unlimited : fresh.session.limit = none := rfl
  refine ⟨?_, fun done => ⟨?_, feedAll_append_of_done done unlimited more⟩⟩
  · rw [report_eq_map_settle, report_eq_map_settle, feedAll_session, feed_session,
      Stream.Grammar.settle_feedAll unlimited]
  · obtain ⟨before, last, after, split, open', closed, index, atIndex, count⟩ :=
      exists_completing_chunk unlimited rfl done
    refine ⟨before, last, after, split, open', closed, index, atIndex, ?_⟩
    have fromStart : fresh.consumed = 0 := rfl
    rw [bodyOffset, if_pos done, count, fromStart, Nat.zero_add]

end Reader

end Octets.Head
