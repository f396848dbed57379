import Octets.Stream.Grammar

/-!
# Streams cut into chunks

Without a limit on tokens, where a stream is cut does not show. Feeding acts on
sessions: feeding one chunk and then another is feeding both joined. Only a
failed call tells the two apart, since it leaves the count of consumed bytes as
the call before it did; what is compared is therefore the session that feeding
ends in, or the failure that ended it.

## Main definitions

* `Grammar.settle` — the session in which feeding has ended, or its failure

## Main results

* `Grammar.settle_feed_append` — two chunks in a row are the joined chunk
* `Grammar.settle_feedAll` — any number of chunks are the joined stream
* `Grammar.consumed_feed_of_pending` — a chunk that does not end the stream is
  consumed whole
* `Grammar.feedAll_of_done` — behind its end a stream takes nothing more
-/

namespace Octets.Stream

variable {σ ε : Type}

namespace Session

/-- The session with another count of consumed bytes. -/
def recount (s : Session σ) (consumed : Nat) : Session σ := { s with consumed }

@[simp] theorem recount_memory (s : Session σ) (n : Nat) : (s.recount n).memory = s.memory := rfl

@[simp] theorem recount_limit (s : Session σ) (n : Nat) : (s.recount n).limit = s.limit := rfl

@[simp] theorem recount_consumed (s : Session σ) (n : Nat) : (s.recount n).consumed = n := rfl

@[simp] theorem recount_recount (s : Session σ) (n m : Nat) :
    (s.recount n).recount m = s.recount m := rfl

@[simp] theorem recount_self (s : Session σ) : s.recount s.consumed = s := rfl

@[simp] theorem extend_nil (s : Session σ) : s.extend [] = s := by
  obtain ⟨memory, token, limit, consumed⟩ := s
  cases token <;> simp [extend]

theorem exceeded_of_unlimited {s : Session σ} (unlimited : s.limit = none) :
    s.exceeded = none := by
  unfold exceeded
  rw [unlimited]
  split <;> simp_all

end Session

namespace Grammar

variable {g : Grammar σ ε} {s next : Session σ}

/-! ## What reading leaves alone -/

theorem close_frame {use : Bytes → Except ε σ} (closed : g.close s use = .ok next) :
    next = { s with memory := next.memory, token := none } := by
  unfold close at closed
  split at closed
  · cases closed
  · split at closed <;> cases closed
    rfl

/-- Reading a byte changes the memory and the open token only. -/
theorem read_frame {b : UInt8} (step : g.read s b = .ok next) :
    next = { s with memory := next.memory, token := next.token } := by
  unfold read at step
  split at step
  · cases step
    rfl
  · cases step
    rfl
  · cases step
    rfl
  -- A byte behind a token, and the last of one, close it first.
  · split at step <;> cases step
    rename_i closed
    rw [close_frame closed]
  · split at step <;> cases step
    rename_i closed
    rw [close_frame closed]
    rfl
  · cases step

theorem limit_readAll (g : Grammar σ ε) (s : Session σ) (bytes : Bytes) :
    (g.readAll s bytes).session.limit = s.limit := by
  induction bytes generalizing s with
  | nil => rfl
  | cons b rest ih =>
    unfold readAll
    split
    · rfl
    · split
      · rfl
      · rename_i next step
        rw [ih next, read_frame step]

/-! ## The count of consumed bytes is only carried along -/

theorem read_recount (g : Grammar σ ε) (s : Session σ) (b : UInt8) (n : Nat) :
    g.read (s.recount n) b = (g.read s b).map (·.recount n) := by
  have close_recount (s : Session σ) (use : Bytes → Except ε σ) :
      g.close (s.recount n) use = (g.close s use).map (·.recount n) := by
    have same : g.collect (s.recount n) = g.collect s := rfl
    unfold close
    rw [same]
    cases g.collect s with
    | error fault => rfl
    | ok token =>
      simp only
      cases use token <;> rfl
  unfold read
  rw [Session.recount_memory]
  -- Only the two moves that close a token do more than put the session together anew.
  cases g.move s.memory b with
  | outside next => rfl
  | first next => rfl
  | inside next => rfl
  | refuse fault => rfl
  | behind use =>
    simp only [close_recount]
    cases g.close s use <;> rfl
  | last use =>
    have extended : (s.recount n).extend [b] = (s.extend [b]).recount n := rfl
    simp only [extended, close_recount]
    cases g.close (s.extend [b]) use <;> rfl

theorem readAll_recount (g : Grammar σ ε) (s : Session σ) (bytes : Bytes) (n : Nat) :
    g.readAll (s.recount n) bytes =
      let reading := g.readAll s bytes
      { reading with session := reading.session.recount n } := by
  induction bytes generalizing s with
  | nil => rfl
  | cons b rest ih =>
    simp only [readAll, Session.recount_memory, read_recount]
    split
    · rfl
    · cases g.read s b with
      | error refusal => rfl
      | ok next =>
        simp only [Except.map]
        rw [ih next]

/-! ## One chunk -/

/-- The session in which feeding has ended, or the failure that ended it. -/
def settle (run : Session σ × Except (Failure ε) Bool) : Except (Failure ε) (Session σ) :=
  run.2.map fun _ => run.1

theorem feed_of_done (done : g.isDone s.memory = true) (chunk : Bytes) :
    g.feed s chunk = (s, .ok true) := by
  simp [feed, feedWindow, done]

theorem readAll_of_done (done : g.isDone s.memory = true) (bytes : Bytes) :
    g.readAll s bytes = ⟨s, 0, none⟩ := by
  cases bytes <;> simp [readAll, done]

theorem readChunk_of_unlimited (unlimited : s.limit = none) (chunk : Bytes) :
    g.readChunk s chunk = g.readAll s chunk := by
  have fits : (g.readAll s chunk).session.exceeded = none :=
    Session.exceeded_of_unlimited ((limit_readAll g s chunk).trans unlimited)
  simp only [readChunk, fits, Option.map_none]
  cases fault : (g.readAll s chunk).fault with
  | some _ => rfl
  | none => simp [← fault]

/-- A chunk is read in one go; its bytes are counted once it has been read. -/
theorem feed_of_unlimited (unlimited : s.limit = none) (chunk : Bytes) :
    g.feed s chunk =
      let reading := g.readAll s chunk
      match reading.fault with
      | some fault => (reading.session, .error ⟨fault, s.consumed + reading.taken⟩)
      | none =>
        (reading.session.recount (s.consumed + reading.taken),
          .ok (g.isDone reading.session.memory)) := by
  by_cases done : g.isDone s.memory = true
  · simp [feed_of_done done, readAll_of_done done, done]
  · have whole : chunk.slice 0 chunk.length = chunk := Bytes.slice_all chunk
    simp only [feed, feedWindow, done, Bool.false_eq_true, if_false, Nat.min_self, Nat.zero_min,
      List.take_zero, Session.extend_nil, whole, readChunk_of_unlimited unlimited]
    rfl

theorem settle_feed (unlimited : s.limit = none) (chunk : Bytes) :
    settle (g.feed s chunk) =
      let reading := g.readAll s chunk
      match reading.fault with
      | some fault => .error ⟨fault, s.consumed + reading.taken⟩
      | none => .ok (reading.session.recount (s.consumed + reading.taken)) := by
  rw [feed_of_unlimited unlimited]
  cases fault : (g.readAll s chunk).fault <;> simp [settle, fault, Except.map]

/-- The answer says whether the session is done. -/
theorem feed_answer (g : Grammar σ ε) (s : Session σ) (chunk : Bytes) :
    (g.feed s chunk).2 = (settle (g.feed s chunk)).map fun next => g.isDone next.memory := by
  unfold feed feedWindow
  split
  · rename_i done
    simp [settle, Except.map, done]
  · simp only
    split <;> rfl

/-- A call that succeeds leaves what a clean reading leaves, with its bytes counted. -/
theorem eq_of_settle_feed (unlimited : s.limit = none) {chunk : Bytes}
    (settled : settle (g.feed s chunk) = .ok next) :
    (g.readAll s chunk).fault = none ∧
      next = (g.readAll s chunk).session.recount (s.consumed + (g.readAll s chunk).taken) := by
  rw [settle_feed unlimited] at settled
  cases fault : (g.readAll s chunk).fault with
  | some _ => simp [fault] at settled
  | none =>
    simp only [fault, Except.ok.injEq] at settled
    exact ⟨rfl, settled.symm⟩

theorem limit_of_settle_feed (unlimited : s.limit = none) {chunk : Bytes}
    (settled : settle (g.feed s chunk) = .ok next) : next.limit = none := by
  obtain ⟨_, rfl⟩ := eq_of_settle_feed unlimited settled
  rw [Session.recount_limit, limit_readAll, unlimited]

/-- Two chunks in a row are the joined chunk. -/
theorem settle_feed_append (unlimited : s.limit = none) (left right : Bytes) :
    settle (g.feed s (left ++ right)) =
      settle (g.feed s left) >>= fun next => settle (g.feed next right) := by
  rw [settle_feed unlimited, settle_feed unlimited, readAll_append]
  cases first : (g.readAll s left).fault with
  | some fault => simp [first, bind, Except.bind]
  | none =>
    have unlimited' : ((g.readAll s left).session.recount
        (s.consumed + (g.readAll s left).taken)).limit = none := by
      rw [Session.recount_limit, limit_readAll, unlimited]
    simp only [first, bind, Except.bind]
    -- The second call starts from another count than the rest of the joined chunk.
    rw [settle_feed unlimited', readAll_recount]
    cases second : (g.readAll (g.readAll s left).session right).fault with
    | some fault => simp [second, Nat.add_assoc]
    | none => simp [second, Nat.add_assoc]

/-! ## Any number of chunks -/

theorem feedAll_of_done (done : g.isDone s.memory = true) (chunks : List Bytes) :
    g.feedAll s chunks = (s, .ok true) := by
  induction chunks with
  | nil => simp [feedAll, done]
  | cons chunk chunks ih => simp [feedAll, feed_of_done done, ih]

theorem settle_feedAll_cons (g : Grammar σ ε) (s : Session σ) (chunk : Bytes)
    (chunks : List Bytes) :
    settle (g.feedAll s (chunk :: chunks)) =
      settle (g.feed s chunk) >>= fun next => settle (g.feedAll next chunks) := by
  rw [feedAll]
  rcases g.feed s chunk with ⟨next, failure | _⟩ <;> rfl

/-- Feeding chunks one after the other ends as feeding the joined stream does. -/
theorem settle_feedAll (unlimited : s.limit = none) (chunks : List Bytes) :
    settle (g.feedAll s chunks) = settle (g.feed s chunks.flatten) := by
  induction chunks generalizing s with
  | nil =>
    rw [List.flatten_nil, settle_feed unlimited]
    rfl
  | cons chunk chunks ih =>
    rw [settle_feedAll_cons, List.flatten_cons, settle_feed_append unlimited]
    cases settled : settle (g.feed s chunk) with
    | error failure => rfl
    | ok next =>
      simp only [bind, Except.bind]
      exact ih (limit_of_settle_feed unlimited settled)

/-- The answer after the last chunk says whether the session is done. -/
theorem feedAll_answer (g : Grammar σ ε) (s : Session σ) (chunks : List Bytes) :
    (g.feedAll s chunks).2 =
      (settle (g.feedAll s chunks)).map fun next => g.isDone next.memory := by
  induction chunks generalizing s with
  | nil => rfl
  | cons chunk chunks ih =>
    rw [feedAll]
    rcases g.feed s chunk with ⟨next, failure | answer⟩
    · rfl
    · exact ih next

/-- Calls that have succeeded leave the session in which they have ended. -/
theorem feedAll_of_settle {chunks : List Bytes} (settled : settle (g.feedAll s chunks) = .ok next) :
    g.feedAll s chunks = (next, .ok (g.isDone next.memory)) := by
  have answer := feedAll_answer g s chunks
  rw [settled] at answer
  rw [settle, answer] at settled
  exact Prod.ext (Except.ok.inj settled) answer

/-! ## How much is consumed -/

theorem taken_readAll_of_pending {bytes : Bytes} (clean : (g.readAll s bytes).fault = none)
    (pending : g.isDone (g.readAll s bytes).session.memory = false) :
    (g.readAll s bytes).taken = bytes.length := by
  induction bytes generalizing s with
  | nil => rfl
  | cons b rest ih =>
    unfold readAll at clean pending ⊢
    split at clean <;> rename_i done
    · simp [done] at pending
    · simp only [done, Bool.false_eq_true, if_false] at pending ⊢
      cases step : g.read s b with
      | error refusal => simp [step] at clean
      | ok next =>
        simp only [step] at clean pending ⊢
        simp [ih clean pending]

/-- A chunk that does not end the stream is consumed whole. -/
theorem consumed_feed_of_pending (unlimited : s.limit = none) {chunk : Bytes}
    (settled : settle (g.feed s chunk) = .ok next) (pending : g.isDone next.memory = false) :
    next.consumed = s.consumed + chunk.length := by
  obtain ⟨clean, rfl⟩ := eq_of_settle_feed unlimited settled
  rw [Session.recount_memory] at pending
  rw [Session.recount_consumed, taken_readAll_of_pending clean pending]

/-- A stream that is refused has not come to its end. -/
theorem pending_of_fault {bytes : Bytes} {fault : ε}
    (refused : (g.readAll s bytes).fault = some fault) :
    g.isDone (g.readAll s bytes).session.memory = false := by
  induction bytes generalizing s with
  | nil => cases refused
  | cons b rest ih =>
    unfold readAll at refused ⊢
    split at refused <;> rename_i done
    · cases refused
    · simp only [done, Bool.false_eq_true, if_false]
      cases step : g.read s b with
      | error refusal => simpa using done
      | ok next =>
        simp only [step] at refused ⊢
        exact ih refused

theorem pending_of_failed_feed (unlimited : s.limit = none) {chunk : Bytes} {failure : Failure ε}
    (failed : g.feed s chunk = (next, .error failure)) : g.isDone next.memory = false := by
  rw [feed_of_unlimited unlimited] at failed
  cases fault : (g.readAll s chunk).fault with
  | some _ =>
    simp only [fault, Prod.mk.injEq] at failed
    rw [← failed.1, pending_of_fault fault]
  | none => simp [fault] at failed

/-- No chunk takes consumed bytes back. -/
theorem consumed_le_of_settle_feed (unlimited : s.limit = none) {chunk : Bytes}
    (settled : settle (g.feed s chunk) = .ok next) : s.consumed ≤ next.consumed := by
  obtain ⟨_, rfl⟩ := eq_of_settle_feed unlimited settled
  exact Nat.le_add_right _ _

end Grammar

end Octets.Stream
