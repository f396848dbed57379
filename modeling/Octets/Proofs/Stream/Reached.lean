import Octets.Proofs.Stream.Invariant
import Octets.Proofs.Stream.Limit
import Octets.Proofs.Stream.Trace

/-!
# Sessions that are reached by chunks

A session that chunks are fed to is at the end of a trace, along all of their bytes if it is
accepted and the stream has not come to its end. In reverse, a trace is followed however its
bytes are cut into chunks, and what stands behind it is fed from where it ends.

The reverse asks of a limit on tokens only that the token at the end of the trace is within it.
An orderly grammar has closed every token before that, which a limit lets pass only if it is
short enough, and until a token is closed it only grows.

## Main results

* `exists_reads_feedAll` — the trace to a session that is reached
* `Orderly.exists_settle_feedAll` — a trace is followed in any chunks
* `exists_feedAll_eq_tooLong` — a token that is too long is refused in any chunks
-/

namespace Octets.Stream

variable {σ ε : Type}

theorem Session.exceeded_eq_none_iff {s : Session σ} :
    s.exceeded = none ↔ ∀ limit ∈ s.limit, s.openBytes.length ≤ limit := by
  obtain ⟨memory, token, limit, consumed⟩ := s
  cases limit <;> cases token <;> simp [exceeded, openBytes]

theorem Session.exceeded_of_closed {s : Session σ} (closed : s.token = none) :
    s.exceeded = none := by
  simp [exceeded, closed]

theorem Session.limit_of_exceeded {s : Session σ} {limit : Nat} (long : s.exceeded = some limit) :
    s.limit = some limit := by
  obtain ⟨memory, token, bound, consumed⟩ := s
  cases token <;> cases bound <;> simp_all [exceeded]

namespace Grammar

variable {g : Grammar σ ε} {s next last mid : Session σ} {bytes front back rest chunk : Bytes}
  {chunks : List Bytes} {b : UInt8} {n : Nat}

/-! ## From chunks to traces -/

theorem Reads.recount (trace : g.Reads s bytes last) (n : Nat) :
    g.Reads (s.recount n) bytes (last.recount n) := by
  induction trace with
  | nil s => exact .nil _
  | cons pending step _ ih =>
    refine .cons pending ?_ ih
    rw [read_recount, step]
    rfl

/-- What a trace leads to keeps the limit and the count of the session that it comes from. -/
theorem Reads.frame (trace : g.Reads s bytes last) :
    last.limit = s.limit ∧ last.consumed = s.consumed := by
  induction trace with
  | nil _ => exact ⟨rfl, rfl⟩
  | cons _ step _ ih =>
    rw [read_frame step] at ih
    exact ih

/-- A trace keeps what every move keeps. -/
theorem Reads.leads {Holds : σ → Option Bytes → Prop}
    (keeps : ∀ m token b, Holds m token → (g.move m b).Leads Holds token b)
    (trace : g.Reads s bytes last) (holds : Holds s.memory s.token) :
    Holds last.memory last.token := by
  induction trace with
  | nil _ => exact holds
  | cons _ step _ ih => exact ih (read_leads Holds (keeps _ _ _ holds) step)

theorem Reads.exists_of_append (trace : g.Reads s (front ++ back) last) :
    ∃ mid, g.Reads s front mid ∧ g.Reads mid back last := by
  induction front generalizing s with
  | nil => exact ⟨s, .nil s, trace⟩
  | cons b front ih =>
    cases trace with
    | cons pending step later =>
      obtain ⟨mid, left, right⟩ := ih later
      exact ⟨mid, .cons pending step left, right⟩

/-- The session that a reading leaves is at the end of a trace, whether or not a fault has
stopped it. -/
theorem exists_reads_readAll (g : Grammar σ ε) (s : Session σ) (bytes : Bytes) :
    ∃ front, front <+: bytes ∧ g.Reads s front (g.readAll s bytes).session := by
  induction bytes generalizing s with
  | nil => exact ⟨[], List.nil_prefix, .nil s⟩
  | cons b rest ih =>
    unfold readAll
    cases pending : g.isDone s.memory with
    | true => exact ⟨[], List.nil_prefix, .nil s⟩
    | false =>
      cases step : g.read s b with
      | error refusal => exact ⟨[], List.nil_prefix, .nil s⟩
      | ok next =>
        obtain ⟨front, inside, trace⟩ := ih next
        exact ⟨b :: front, List.cons_prefix_cons.mpr ⟨rfl, inside⟩, .cons pending step trace⟩

theorem readChunk_session (g : Grammar σ ε) (s : Session σ) (chunk : Bytes) :
    (g.readChunk s chunk).session = (g.readAll s chunk).session := by
  unfold readChunk
  simp only
  split
  · rfl
  · split <;> rfl

/-- A chunk is read in one go, and its bytes are counted if that succeeds. -/
theorem feed_eq_match_readChunk (g : Grammar σ ε) (s : Session σ) (chunk : Bytes) :
    g.feed s chunk =
      let reading := g.readChunk s chunk
      match reading.fault with
      | some fault => (reading.session, .error ⟨fault, s.consumed + reading.taken⟩)
      | none =>
        (reading.session.recount (s.consumed + reading.taken),
          .ok (g.isDone reading.session.memory)) := by
  cases done : g.isDone s.memory with
  | true => simp [feed_of_done done, readChunk_of_done done, done]
  | false => exact feed_of_pending done chunk

/-- But for the count, a call leaves what a reading leaves. -/
theorem feed_fst_recount (g : Grammar σ ε) (s : Session σ) (chunk : Bytes) :
    (g.feed s chunk).1.recount s.consumed = (g.readAll s chunk).session := by
  obtain ⟨front, _, trace⟩ := exists_reads_readAll g s chunk
  have counted : (g.readAll s chunk).session.recount s.consumed = (g.readAll s chunk).session := by
    rw [← trace.frame.2]
    rfl
  rw [feed_eq_match_readChunk]
  simp only
  split <;> simp only [Session.recount_recount, readChunk_session, counted]

/-- A call that succeeds before the end of the stream takes the whole chunk, and leaves no token
that is too long. -/
theorem reads_of_feed (fed : g.feed s chunk = (next, .ok false)) :
    g.Reads s chunk (next.recount s.consumed) ∧ next.consumed = s.consumed + chunk.length ∧
      next.exceeded = none := by
  have same := feed_fst_recount g s chunk
  rw [fed] at same
  rw [feed_eq_match_readChunk] at fed
  cases stopped : (g.readChunk s chunk).fault with
  | some fault => simp [stopped] at fed
  | none =>
    simp only [stopped, Prod.mk.injEq, Except.ok.injEq, readChunk_session] at fed
    obtain ⟨rfl, pending⟩ := fed
    have clean : (g.readAll s chunk).fault = none := by
      cases fault : (g.readAll s chunk).fault with
      | none => rfl
      | some fault => simp [readChunk, fault] at stopped
    have short : (g.readAll s chunk).session.exceeded = none := by
      simpa [readChunk, clean, pending] using stopped
    have taken : (g.readChunk s chunk).taken = chunk.length := by
      rw [← taken_readAll_of_pending clean pending]
      simp [readChunk, clean, pending]
    have trace := reads_readAll clean
    rw [taken_readAll_of_pending clean pending, List.take_length] at trace
    refine ⟨same ▸ trace, ?_, short⟩
    rw [Session.recount_consumed, taken]

/-- The answer says whether the stream has come to its end. -/
theorem isDone_of_feed {answer : Bool} (fed : g.feed s chunk = (next, .ok answer)) :
    g.isDone next.memory = answer := by
  have answered := feed_answer g s chunk
  rw [fed] at answered
  exact (Except.ok.inj answered).symm

theorem isDone_of_feedAll {answer : Bool} (fed : g.feedAll s chunks = (last, .ok answer)) :
    g.isDone last.memory = answer := by
  have answered := feedAll_answer g s chunks
  rw [fed] at answered
  exact (Except.ok.inj answered).symm

/-- Calls that succeed before the end of the stream take the chunks whole. -/
theorem reads_of_feedAll (fed : g.feedAll s chunks = (last, .ok false)) :
    g.Reads s chunks.flatten (last.recount s.consumed) ∧
      last.consumed = s.consumed + chunks.flatten.length ∧
        (s.exceeded = none → last.exceeded = none) := by
  induction chunks generalizing s with
  | nil =>
    obtain ⟨rfl, _⟩ := Prod.mk.inj fed
    exact ⟨.nil _, rfl, id⟩
  | cons chunk chunks ih =>
    rw [feedAll] at fed
    rcases call : g.feed s chunk with ⟨next, failure | answer⟩
    · simp [call] at fed
    simp only [call] at fed
    cases answer with
    | true => simp [feedAll_of_done (isDone_of_feed call)] at fed
    | false =>
      obtain ⟨first, count, short⟩ := reads_of_feed call
      obtain ⟨later, count', short'⟩ := ih fed
      refine ⟨first.append (later.recount s.consumed), ?_, fun _ => short' short⟩
      rw [count', count, List.flatten_cons, List.length_append, Nat.add_assoc]

/-- Whatever calls come to, the session that they leave is at the end of a trace. -/
theorem exists_reads_feedAll (g : Grammar σ ε) (s : Session σ) (chunks : List Bytes) :
    ∃ front, front <+: chunks.flatten ∧
      g.Reads s front ((g.feedAll s chunks).1.recount s.consumed) := by
  induction chunks generalizing s with
  | nil => exact ⟨[], List.nil_prefix, .nil s⟩
  | cons chunk chunks ih =>
    rw [feedAll, List.flatten_cons]
    have stopped : ∃ front, front <+: chunk ++ chunks.flatten ∧
        g.Reads s front ((g.feed s chunk).1.recount s.consumed) := by
      obtain ⟨front, inside, trace⟩ := exists_reads_readAll g s chunk
      exact ⟨front, inside.trans (List.prefix_append _ _), feed_fst_recount g s chunk ▸ trace⟩
    rcases call : g.feed s chunk with ⟨next, failure | answer⟩
    · rwa [call] at stopped
    simp only
    cases answer with
    | true =>
      rw [feedAll_of_done (isDone_of_feed call)]
      rwa [call] at stopped
    | false =>
      obtain ⟨first, _, _⟩ := reads_of_feed call
      obtain ⟨front, inside, later⟩ := ih next
      refine ⟨chunk ++ front, (List.prefix_append_right_inj chunk).mpr inside, ?_⟩
      exact first.append (later.recount s.consumed)

/-- A reading stops at a byte that is refused. -/
theorem read_eq_error_of_readAll {fault : ε} (stopped : (g.readAll s bytes).fault = some fault) :
    ∃ b taken, g.read (g.readAll s bytes).session b = .error (fault, taken) := by
  induction bytes generalizing s with
  | nil => cases stopped
  | cons b rest ih =>
    unfold readAll at stopped ⊢
    cases pending : g.isDone s.memory with
    | true => simp [pending] at stopped
    | false =>
      cases step : g.read s b with
      | error refusal =>
        obtain ⟨found, taken⟩ := refusal
        simp only [pending, step, Bool.false_eq_true, if_false, Option.some.injEq] at stopped
        exact ⟨b, taken, by simp [step, stopped]⟩
      | ok next =>
        simp only [pending, step, Bool.false_eq_true, if_false] at stopped ⊢
        exact ih stopped

/-- A chunk is refused at a byte, or at its end for a token that is too long. -/
theorem read_eq_error_of_readChunk {fault : ε} (stopped : (g.readChunk s bytes).fault = some fault) :
    (∃ b taken, g.read (g.readChunk s bytes).session b = .error (fault, taken)) ∨
      ∃ limit, fault = g.tooLong limit := by
  rw [readChunk_session]
  cases refused : (g.readAll s bytes).fault with
  | some found =>
    have same : found = fault := by simpa [readChunk, refused] using stopped
    exact .inl (same ▸ read_eq_error_of_readAll refused)
  | none =>
    simp only [readChunk, refused] at stopped
    split at stopped
    · cases refused.symm.trans stopped
    · obtain ⟨limit, _, rfl⟩ := Option.map_eq_some_iff.mp stopped
      exact .inr ⟨limit, rfl⟩

theorem read_eq_error_of_feedAll {failure : Failure ε}
    (failed : g.feedAll s chunks = (last, .error failure)) :
    (∃ b taken, g.read last b = .error (failure.fault, taken)) ∨
      ∃ limit, failure.fault = g.tooLong limit := by
  induction chunks generalizing s with
  | nil => cases failed
  | cons chunk chunks ih =>
    rw [feedAll] at failed
    rcases call : g.feed s chunk with ⟨next, found | answer⟩
    · simp only [call, Prod.mk.injEq, Except.error.injEq] at failed
      obtain ⟨rfl, rfl⟩ := failed
      rw [feed_eq_match_readChunk] at call
      cases stopped : (g.readChunk s chunk).fault with
      | none => simp [stopped] at call
      | some fault =>
        simp only [stopped, Prod.mk.injEq, Except.error.injEq] at call
        obtain ⟨rfl, rfl⟩ := call
        exact read_eq_error_of_readChunk stopped
    · simp only [call] at failed
      exact ih failed

/-! ## From traces to chunks -/

/-- A byte that is read closes no token that is too long. -/
theorem closesFitting_of_read {limit : Nat} (limited : limit ∈ s.limit)
    (step : g.read s b = .ok next) : g.ClosesFitting limit s b := by
  refine Classical.byContradiction fun long => ?_
  obtain ⟨taken, refused⟩ := read_limited_of_long long
  have same : s.limited limit = s := by
    obtain ⟨memory, token, _, consumed⟩ := s
    cases limited
    rfl
  rw [same, step] at refused
  cases refused

theorem readChunk_recount (g : Grammar σ ε) (s : Session σ) (n : Nat) (chunk : Bytes) :
    g.readChunk (s.recount n) chunk =
      let reading := g.readChunk s chunk
      { reading with session := reading.session.recount n } := by
  unfold readChunk
  rw [readAll_recount]
  cases stopped : (g.readAll s chunk).fault with
  | some fault => simp only [stopped]
  | none =>
    simp only [stopped, Session.recount_memory]
    split
    · simp only [stopped]
    · rfl

/-- What lies behind a trace is read from where the trace ends. -/
theorem Reads.readChunk_append (trace : g.Reads s front mid) (back : Bytes) :
    g.readChunk s (front ++ back) =
      let reading := g.readChunk mid back
      { reading with taken := reading.taken + front.length } := by
  unfold readChunk
  rw [trace.readAll_append]
  simp only
  split
  · rfl
  · split <;> rfl

theorem Reads.fault_readChunk (trace : g.Reads s front mid) (back : Bytes) :
    (g.readChunk s (front ++ back)).fault = (g.readChunk mid back).fault := by
  rw [trace.readChunk_append]

/-- A chunk that begins with a trace goes on behind it. -/
theorem Reads.settle_feed_append (trace : g.Reads s front mid) (back : Bytes) :
    settle (g.feed s (front ++ back)) =
      settle (g.feed (mid.recount (s.consumed + front.length)) back) := by
  rw [feed_eq_match_readChunk, feed_eq_match_readChunk, trace.readChunk_append, readChunk_recount]
  simp only [Nat.add_comm _ front.length, ← Nat.add_assoc]
  cases (g.readChunk mid back).fault <;> rfl

theorem settle_feed_nil (fits : s.exceeded = none) : settle (g.feed s []) = .ok s := by
  rw [feed_eq_match_readChunk, readChunk_nil, fits]
  split <;> rfl

theorem settle_feedAll_of_flatten_eq_nil (fits : s.exceeded = none)
    (empty : chunks.flatten = []) : settle (g.feedAll s chunks) = .ok s := by
  induction chunks with
  | nil => rfl
  | cons chunk chunks ih =>
    rw [List.flatten_cons, List.append_eq_nil_iff] at empty
    rw [settle_feedAll_cons, empty.1, settle_feed_nil fits]
    exact ih empty.2

/-! ## Tokens that are too long -/

/-- What stops a chunk stops a longer one, unless it is a token that is too long at the end. -/
theorem fault_readChunk_append {fault : ε} (stopped : (g.readChunk s front).fault = some fault)
    (back : Bytes) :
    (g.readChunk s (front ++ back)).fault = some fault ∨
      ∃ limit, s.limit = some limit ∧ fault = g.tooLong limit := by
  cases refused : (g.readAll s front).fault with
  | some found =>
    have same : found = fault := by simpa [readChunk, refused] using stopped
    exact .inl (by simp [readChunk, readAll_append, refused, same])
  | none =>
    simp only [readChunk, refused] at stopped
    split at stopped
    · cases refused.symm.trans stopped
    · obtain ⟨limit, long, rfl⟩ := Option.map_eq_some_iff.mp stopped
      exact .inr ⟨limit, limit_readAll g s front ▸ Session.limit_of_exceeded long, rfl⟩

/-- A stream that comes to its end in a chunk is stopped by nothing behind. -/
theorem fault_readChunk_append_of_feed (fed : g.feed s front = (next, .ok true)) (back : Bytes) :
    (g.readChunk s (front ++ back)).fault = none := by
  have done := isDone_of_feed fed
  rw [feed_eq_match_readChunk] at fed
  cases stopped : (g.readChunk s front).fault with
  | some fault => simp [stopped] at fed
  | none =>
    simp only [stopped, Prod.mk.injEq] at fed
    have done : g.isDone (g.readAll s front).session.memory = true := by
      rw [← readChunk_session, ← done, ← fed.1, Session.recount_memory]
    cases refused : (g.readAll s front).fault with
    | some fault => simp [readChunk, refused] at stopped
    | none => simp [readChunk, readAll_append, refused, readAll_of_done done, done]

/-- Bytes that hold a token that is too long are refused for one in any chunks. -/
theorem exists_feedAll_eq_tooLong {limit : Nat} (limited : s.limit = some limit)
    (fits : s.exceeded = none)
    (long : (g.readChunk s chunks.flatten).fault = some (g.tooLong limit)) :
    ∃ offset, (g.feedAll s chunks).2 = .error ⟨g.tooLong limit, offset⟩ := by
  induction chunks generalizing s with
  | nil =>
    rw [List.flatten_nil, readChunk_nil, fits] at long
    split at long <;> cases long
  | cons chunk chunks ih =>
    rw [List.flatten_cons] at long
    rw [feedAll]
    rcases call : g.feed s chunk with ⟨next, ⟨fault, offset⟩ | answer⟩
    · refine ⟨offset, ?_⟩
      rw [feed_eq_match_readChunk] at call
      cases stopped : (g.readChunk s chunk).fault with
      | none => simp [stopped] at call
      | some found =>
        simp only [stopped, Prod.mk.injEq, Except.error.injEq, Failure.mk.injEq] at call
        obtain ⟨-, rfl, -⟩ := call
        obtain same | ⟨bound, limited', rfl⟩ :=
          fault_readChunk_append stopped chunks.flatten
        · rw [Option.some.inj (same.symm.trans long)]
        · rw [Option.some.inj (limited'.symm.trans limited)]
    · cases answer with
      | true =>
        rw [fault_readChunk_append_of_feed call] at long
        cases long
      | false =>
        obtain ⟨trace, _, short⟩ := reads_of_feed call
        rw [trace.fault_readChunk, readChunk_recount] at long
        exact ih (trace.frame.1.trans limited) short long

section Orderly

variable {Holds : σ → Bool → Prop} (orderly : g.Orderly Holds)
include orderly

/-- An open token is no longer than what a trace comes to, so it is within a limit that this
is within. -/
theorem Orderly.exceeded_of_reads (holds : Holds s.memory s.token.isSome)
    (trace : g.Reads s bytes last) (fits : last.exceeded = none) : s.exceeded = none := by
  induction trace with
  | nil _ => exact fits
  | @cons s next last b rest pending step _ ih =>
    have later := ih (orderly.read holds step) fits
    cases opened : s.token with
    | none => exact Session.exceeded_of_closed opened
    | some token =>
      rw [Session.exceeded_eq_none_iff] at later ⊢
      intro limit limited
      rw [read_frame step] at later
      obtain ⟨closed, closes, le⟩ | ⟨_, le⟩ :=
        orderly.closed_or_open holds (opened ▸ rfl) step
      · exact Nat.le_trans le (closesFitting_of_read limited step closed closes)
      · exact Nat.le_trans le (later limit limited)

theorem Orderly.reads (holds : Holds s.memory s.token.isSome) (trace : g.Reads s bytes last) :
    Holds last.memory last.token.isSome := by
  induction trace with
  | nil _ => exact holds
  | cons _ step _ ih => exact ih (orderly.read holds step)

/-- A trace is followed in any chunks, and what stands behind it is fed to the session that it
leads to, if the token that is open there is within the limit. -/
theorem Orderly.exists_settle_feedAll (holds : Holds s.memory s.token.isSome)
    (trace : g.Reads s front mid) (fits : mid.exceeded = none)
    (cut : chunks.flatten = front ++ rest) :
    ∃ later, later.flatten = rest ∧ settle (g.feedAll s chunks) =
      settle (g.feedAll (mid.recount (s.consumed + front.length)) later) := by
  induction chunks generalizing s front mid with
  | nil =>
    obtain ⟨rfl, rfl⟩ := List.append_eq_nil_iff.mp cut.symm
    cases trace
    exact ⟨[], rfl, rfl⟩
  | cons chunk chunks ih =>
    rw [List.flatten_cons] at cut
    rw [settle_feedAll_cons]
    obtain ⟨front, rfl, cut'⟩ | ⟨right, rfl, rfl⟩ := List.append_eq_append_iff.mp cut
    -- The chunk is a part of the trace, and no token is too long at its end.
    · obtain ⟨next, first, trace⟩ := trace.exists_of_append
      have holds' := orderly.reads holds first
      have short := orderly.exceeded_of_reads holds' trace fits
      have fed := first.settle_feed_append []
      have ended : settle (g.feed (next.recount (s.consumed + chunk.length)) []) = .ok _ :=
        settle_feed_nil short
      rw [List.append_nil, ended] at fed
      obtain ⟨later, joined, same⟩ := ih (s := next.recount (s.consumed + chunk.length)) holds'
        (trace.recount _) fits cut'
      refine ⟨later, joined, ?_⟩
      rw [fed, List.length_append, ← Nat.add_assoc]
      exact same
    -- The trace ends inside of the chunk.
    · refine ⟨right :: chunks, rfl, ?_⟩
      rw [settle_feedAll_cons, trace.settle_feed_append]

/-- A trace along all bytes is what chunks of them come to. -/
theorem Orderly.feedAll_of_reads (holds : Holds s.memory s.token.isSome)
    (trace : g.Reads s front mid) (fits : mid.exceeded = none) (cut : chunks.flatten = front) :
    g.feedAll s chunks =
      (mid.recount (s.consumed + front.length), .ok (g.isDone mid.memory)) := by
  obtain ⟨later, joined, same⟩ :=
    orderly.exists_settle_feedAll holds trace fits (cut.trans (List.append_nil front).symm)
  have ended : settle (g.feedAll (mid.recount (s.consumed + front.length)) later) = .ok _ :=
    settle_feedAll_of_flatten_eq_nil fits joined
  exact feedAll_of_settle (same.trans ended)

end Orderly

end Grammar

end Octets.Stream
