import Octets.Proofs.Stream.Chunking
import Octets.Proofs.Stream.Invariant

/-!
# Limits on tokens

A session with a limit on the length of its tokens reads as one without, or it stops because
a token is too long. The limit is asked where a token is closed, and where a chunk ends inside
of one. Which of the two comes first depends on the cuts, and with it the offset of the
failure, or even which of two failures it is. Whether there is one does not: an open token only
grows until it is closed, so a stream is accepted under a limit iff it is accepted without one
and no token of it is too long.

The last holds of *orderly* grammars. They begin a token only where none is open, so no token
is dropped before its length has been looked at, and the stream does not end inside of one.

## Main definitions

* `Session.limited` — a session with a limit on its tokens
* `Grammar.tokens` — the tokens of a stream, with one that is left open at its end
* `Grammar.Fits` — no token of a stream is too long
* `Grammar.Orderly` — grammars that tell from their memory whether a token is open

## Main results

* `settle_feedAll_limited` — a limited session ends as the unlimited one, or in a token too long
* `settle_feedAll_limited_eq_ok_iff` — a limited session is accepted iff the unlimited one is and
  all tokens are short enough
* `openBytes_le_of_settle_feedAll` — never more bytes than the limit are held over
-/

namespace Octets.Stream

variable {σ ε : Type}

namespace Session

/-- The session with a limit on the length of its tokens. -/
def limited (s : Session σ) (limit : Nat) : Session σ := { s with limit := some limit }

@[simp] theorem memory_limited (s : Session σ) (limit : Nat) :
    (s.limited limit).memory = s.memory := rfl

@[simp] theorem openBytes_limited (s : Session σ) (limit : Nat) :
    (s.limited limit).openBytes = s.openBytes := rfl

theorem exceeded_limited (s : Session σ) (limit : Nat) :
    (s.limited limit).exceeded = if limit < s.openBytes.length then some limit else none := by
  obtain ⟨memory, token, _, consumed⟩ := s
  cases token <;> rfl

end Session

namespace Grammar

variable {g : Grammar σ ε} {s next last : Session σ} {limit : Nat} {bytes token : Bytes}
  {b : UInt8}

/-! ## The tokens of a stream -/

/-- The token that a byte closes. -/
def closed (g : Grammar σ ε) (s : Session σ) (b : UInt8) : Option Bytes :=
  match g.move s.memory b with
  | .behind _ => some s.openBytes
  | .last _ => some (s.extend [b]).openBytes
  | _ => none

/-- The tokens that are closed while some bytes are read, up to the first fault, and the token
that is left open behind them. -/
def tokens (g : Grammar σ ε) (s : Session σ) : Bytes → List Bytes
  | [] => if g.isDone s.memory then [] else s.token.toList
  | b :: rest =>
    if g.isDone s.memory then []
    else
      (g.closed s b).toList ++
        match g.read s b with
        | .ok next => tokens g next rest
        | .error _ => []

theorem tokens_of_done (done : g.isDone s.memory = true) (bytes : Bytes) :
    g.tokens s bytes = [] := by
  cases bytes <;> simp [tokens, done]

theorem tokens_nil (pending : g.isDone s.memory = false) : g.tokens s [] = s.token.toList := by
  simp [tokens, pending]

theorem tokens_cons_of_ok (pending : g.isDone s.memory = false) (step : g.read s b = .ok next) :
    g.tokens s (b :: bytes) = (g.closed s b).toList ++ g.tokens next bytes := by
  simp [tokens, pending, step]

theorem tokens_recount (g : Grammar σ ε) (s : Session σ) (n : Nat) (bytes : Bytes) :
    g.tokens (s.recount n) bytes = g.tokens s bytes := by
  induction bytes generalizing s with
  | nil => rfl
  | cons b rest ih =>
    have same : g.closed (s.recount n) b = g.closed s b := by
      unfold closed
      rw [Session.recount_memory]
      cases g.move s.memory b <;> rfl
    simp only [tokens, Session.recount_memory, read_recount, same]
    cases g.read s b with
    | error refusal => rfl
    | ok next => simp only [Except.map, ih next]

/-- No token of a stream is too long. -/
def Fits (g : Grammar σ ε) (limit : Nat) (s : Session σ) (bytes : Bytes) : Prop :=
  ∀ token ∈ g.tokens s bytes, token.length ≤ limit

/-- A byte closes no token that is too long. -/
def ClosesFitting (g : Grammar σ ε) (limit : Nat) (s : Session σ) (b : UInt8) : Prop :=
  ∀ token ∈ g.closed s b, token.length ≤ limit

theorem fits_of_done (done : g.isDone s.memory = true) (bytes : Bytes) : g.Fits limit s bytes := by
  simp [Fits, tokens_of_done done]

theorem fits_nil_iff (pending : g.isDone s.memory = false) :
    g.Fits limit s [] ↔ s.openBytes.length ≤ limit := by
  rw [Fits, tokens_nil pending, Session.openBytes]
  cases s.token <;> simp

theorem fits_cons_iff_of_ok (pending : g.isDone s.memory = false) (step : g.read s b = .ok next) :
    g.Fits limit s (b :: bytes) ↔ g.ClosesFitting limit s b ∧ g.Fits limit next bytes := by
  simp only [Fits, ClosesFitting, tokens_cons_of_ok pending step, List.forall_mem_append,
    Option.mem_toList, Option.mem_def]

theorem fits_cons_iff_of_error {refusal : ε × Nat} (pending : g.isDone s.memory = false)
    (step : g.read s b = .error refusal) :
    g.Fits limit s (b :: bytes) ↔ g.ClosesFitting limit s b := by
  simp [Fits, ClosesFitting, tokens, pending, step]

theorem fits_recount (n : Nat) : g.Fits limit (s.recount n) bytes ↔ g.Fits limit s bytes := by
  rw [Fits, tokens_recount]
  rfl

/-! ## Reading under a limit -/

theorem close_limited_of_fits (unlimited : s.limit = none) (fits : s.openBytes.length ≤ limit)
    (use : Bytes → Except ε σ) :
    g.close (s.limited limit) use = (g.close s use).map (·.limited limit) := by
  have exceeded : (s.limited limit).exceeded = none := by
    rw [Session.exceeded_limited, if_neg (Nat.not_lt.mpr fits)]
  simp only [close, collect, exceeded, Session.exceeded_of_unlimited unlimited,
    Session.openBytes_limited]
  cases use s.openBytes <;> rfl

theorem close_limited_of_long (long : limit < s.openBytes.length) (use : Bytes → Except ε σ) :
    g.close (s.limited limit) use = .error (g.tooLong limit) := by
  simp only [close, collect, Session.exceeded_limited, if_pos long]

/-- Where no token is closed that is too long, a limit changes nothing. -/
theorem read_limited_of_fits (unlimited : s.limit = none) (fits : g.ClosesFitting limit s b) :
    g.read (s.limited limit) b = (g.read s b).map (·.limited limit) := by
  unfold ClosesFitting closed at fits
  unfold read
  rw [Session.memory_limited]
  cases moves : g.move s.memory b with
  | outside next => rfl
  | first next => rfl
  | inside next => rfl
  | refuse fault => rfl
  | behind use =>
    have fits : s.openBytes.length ≤ limit := fits _ (by rw [moves]; rfl)
    simp only [close_limited_of_fits unlimited fits]
    cases g.close s use <;> rfl
  | last use =>
    have fits : (s.extend [b]).openBytes.length ≤ limit := fits _ (by rw [moves]; rfl)
    have extended : (s.limited limit).extend [b] = (s.extend [b]).limited limit := rfl
    have unlimited' : (s.extend [b]).limit = none := unlimited
    simp only [extended, close_limited_of_fits unlimited' fits]
    cases g.close (s.extend [b]) use <;> rfl

/-- A token that is too long is refused where it is closed. -/
theorem read_limited_of_long (long : ¬ g.ClosesFitting limit s b) :
    ∃ taken, g.read (s.limited limit) b = .error (g.tooLong limit, taken) := by
  unfold ClosesFitting closed at long
  unfold read
  rw [Session.memory_limited]
  cases moves : g.move s.memory b with
  | behind use =>
    have long : limit < s.openBytes.length := by simpa [moves] using long
    exact ⟨0, by simp only [close_limited_of_long long]⟩
  | last use =>
    have long : limit < (s.extend [b]).openBytes.length := by simpa [moves] using long
    have extended : (s.limited limit).extend [b] = (s.extend [b]).limited limit := rfl
    exact ⟨1, by simp only [extended, close_limited_of_long long]⟩
  | _ => simp [moves] at long

theorem limit_of_read (step : g.read s b = .ok next) : next.limit = s.limit := by
  rw [read_frame step]

theorem readChunk_nil (g : Grammar σ ε) (s : Session σ) :
    g.readChunk s [] =
      if g.isDone s.memory then ⟨s, 0, none⟩ else ⟨s, 0, s.exceeded.map g.tooLong⟩ := rfl

theorem readChunk_of_done (done : g.isDone s.memory = true) (bytes : Bytes) :
    g.readChunk s bytes = ⟨s, 0, none⟩ := by
  simp [readChunk, readAll_of_done done, done]

theorem readChunk_cons_of_error {fault : ε} {taken : Nat} (pending : g.isDone s.memory = false)
    (step : g.read s b = .error (fault, taken)) :
    g.readChunk s (b :: bytes) = ⟨s, taken, some fault⟩ := by
  simp [readChunk, readAll, pending, step]

theorem readChunk_cons_of_ok (pending : g.isDone s.memory = false)
    (step : g.read s b = .ok next) :
    g.readChunk s (b :: bytes) =
      { g.readChunk next bytes with taken := (g.readChunk next bytes).taken + 1 } := by
  simp only [readChunk, readAll, pending, step, Bool.false_eq_true, if_false]
  cases stopped : (g.readAll next bytes).fault with
  | some fault => simp [stopped]
  | none =>
    by_cases done : g.isDone (g.readAll next bytes).session.memory = true
    · simp [done, stopped]
    · simp [done]

/-- A chunk whose tokens are short enough is read as without a limit. -/
theorem readChunk_limited_of_fits (unlimited : s.limit = none) (fits : g.Fits limit s bytes) :
    g.readChunk (s.limited limit) bytes =
      let reading := g.readAll s bytes
      { reading with session := reading.session.limited limit } := by
  induction bytes generalizing s with
  | nil =>
    cases done : g.isDone s.memory with
    | true => exact readChunk_of_done (s := s.limited limit) done []
    | false =>
      have fits := (fits_nil_iff done).mp fits
      simp [readChunk_nil, done, Session.exceeded_limited, Nat.not_lt.mpr fits, readAll]
  | cons b rest ih =>
    cases done : g.isDone s.memory with
    | true => rw [readChunk_of_done (s := s.limited limit) done, readAll_of_done done]
    | false =>
      cases free : g.read s b with
      | error refusal =>
        have step := read_limited_of_fits unlimited ((fits_cons_iff_of_error done free).mp fits)
        rw [free] at step
        rw [readChunk_cons_of_error (s := s.limited limit) done step]
        simp [readAll, done, free]
      | ok next =>
        obtain ⟨closes, later⟩ := (fits_cons_iff_of_ok done free).mp fits
        have step := read_limited_of_fits unlimited closes
        rw [free] at step
        rw [readChunk_cons_of_ok (s := s.limited limit) done step,
          ih ((limit_of_read free).trans unlimited) later]
        simp [readAll, done, free]

/-- A token that is too long is refused in its chunk. -/
theorem readChunk_limited_of_long (unlimited : s.limit = none) (long : ¬ g.Fits limit s bytes) :
    (g.readChunk (s.limited limit) bytes).fault = some (g.tooLong limit) := by
  induction bytes generalizing s with
  | nil =>
    cases done : g.isDone s.memory with
    | true => exact absurd (fits_of_done done []) long
    | false =>
      have long := Nat.lt_of_not_le (long ∘ (fits_nil_iff done).mpr)
      simp [readChunk_nil, done, Session.exceeded_limited, long]
  | cons b rest ih =>
    cases done : g.isDone s.memory with
    | true => exact absurd (fits_of_done done _) long
    | false =>
      -- Either the byte closes a token that is too long, or it is read as without a limit.
      by_cases closes : g.ClosesFitting limit s b
      · have step := read_limited_of_fits unlimited closes
        cases free : g.read s b with
        | error refusal => exact absurd ((fits_cons_iff_of_error done free).mpr closes) long
        | ok next =>
          rw [free] at step
          rw [readChunk_cons_of_ok (s := s.limited limit) done step]
          exact ih ((limit_of_read free).trans unlimited)
            fun later => long ((fits_cons_iff_of_ok done free).mpr ⟨closes, later⟩)
      · obtain ⟨taken, step⟩ := read_limited_of_long closes
        rw [readChunk_cons_of_error (s := s.limited limit) done step]

/-! ## Feeding under a limit -/

theorem feed_of_pending (pending : g.isDone s.memory = false) (chunk : Bytes) :
    g.feed s chunk =
      let reading := g.readChunk s chunk
      match reading.fault with
      | some fault => (reading.session, .error ⟨fault, s.consumed + reading.taken⟩)
      | none =>
        (reading.session.recount (s.consumed + reading.taken),
          .ok (g.isDone reading.session.memory)) := by
  have whole : chunk.slice 0 chunk.length = chunk := Bytes.slice_all chunk
  simp only [feed, feedWindow, pending, Bool.false_eq_true, if_false, Nat.min_self, Nat.zero_min,
    List.take_zero, Session.extend_nil, whole]
  rfl

theorem settle_feed_limited_of_fits (unlimited : s.limit = none) (fits : g.Fits limit s bytes) :
    settle (g.feed (s.limited limit) bytes) =
      (settle (g.feed s bytes)).map (·.limited limit) := by
  cases done : g.isDone s.memory with
  | true =>
    rw [feed_of_done done, feed_of_done (s := s.limited limit) done]
    rfl
  | false =>
    rw [feed_of_pending (s := s.limited limit) done, readChunk_limited_of_fits unlimited fits,
      settle_feed unlimited]
    simp only
    cases (g.readAll s bytes).fault <;> rfl

theorem settle_feed_limited_of_long (unlimited : s.limit = none) (long : ¬ g.Fits limit s bytes) :
    ∃ offset, settle (g.feed (s.limited limit) bytes) = .error ⟨g.tooLong limit, offset⟩ := by
  cases done : g.isDone s.memory with
  | true => exact absurd (fits_of_done done bytes) long
  | false =>
    rw [feed_of_pending (s := s.limited limit) done]
    simp only [readChunk_limited_of_long unlimited long]
    exact ⟨_, rfl⟩

/-- A limited session goes on where the unlimited one does and no token is too long. -/
theorem settle_feed_limited_eq_ok_iff (unlimited : s.limit = none) :
    settle (g.feed (s.limited limit) bytes) = .ok last ↔
      ∃ next, settle (g.feed s bytes) = .ok next ∧ g.Fits limit s bytes ∧
        next.limited limit = last := by
  by_cases fits : g.Fits limit s bytes
  · rw [settle_feed_limited_of_fits unlimited fits]
    cases settle (g.feed s bytes) <;> simp [Except.map, fits]
  · obtain ⟨offset, refused⟩ := settle_feed_limited_of_long unlimited fits
    simp [refused, fits]

/-- However a stream is cut, a limited session ends as the unlimited one does, or in a token
that is too long. -/
theorem settle_feedAll_limited (unlimited : s.limit = none) (limit : Nat)
    (chunks : List Bytes) :
    settle (g.feedAll (s.limited limit) chunks) =
        (settle (g.feedAll s chunks)).map (·.limited limit) ∨
      ∃ offset, settle (g.feedAll (s.limited limit) chunks) =
        .error ⟨g.tooLong limit, offset⟩ := by
  induction chunks generalizing s with
  | nil => exact .inl rfl
  | cons chunk chunks ih =>
    rw [settle_feedAll_cons, settle_feedAll_cons]
    by_cases fits : g.Fits limit s chunk
    · rw [settle_feed_limited_of_fits unlimited fits]
      cases settled : settle (g.feed s chunk) with
      | error failure => exact .inl rfl
      | ok next => exact ih (limit_of_settle_feed unlimited settled)
    · obtain ⟨offset, refused⟩ := settle_feed_limited_of_long unlimited fits
      refine .inr ⟨offset, ?_⟩
      rw [refused]
      rfl

theorem settle_feed_append_eq_ok_iff (unlimited : s.limit = none) {left right : Bytes} :
    settle (g.feed s (left ++ right)) = .ok last ↔
      ∃ next, settle (g.feed s left) = .ok next ∧ settle (g.feed next right) = .ok last := by
  rw [settle_feed_append unlimited]
  cases settle (g.feed s left) <;> simp [bind, Except.bind]

theorem settle_feedAll_cons_eq_ok_iff {chunk : Bytes} {chunks : List Bytes} :
    settle (g.feedAll s (chunk :: chunks)) = .ok last ↔
      ∃ next, settle (g.feed s chunk) = .ok next ∧ settle (g.feedAll next chunks) = .ok last := by
  rw [settle_feedAll_cons]
  cases settle (g.feed s chunk) <;> simp [bind, Except.bind]

/-! ## Orderly grammars -/

/-- What a move makes of a memory that says whether a token is open. -/
def Keeps (Holds : σ → Bool → Prop) (isOpen : Bool) : Move σ ε → Prop
  | .outside next => Holds next isOpen
  | .first next => isOpen = false ∧ Holds next true
  | .inside next => Holds next isOpen
  | .behind use => ∀ token next, use token = .ok next → Holds next false
  | .last use => ∀ token next, use token = .ok next → Holds next false
  | .refuse _ => True

/-- The memory says whether a token is open: no token is begun where one is open, and the
stream does not end inside of one. -/
structure Orderly (g : Grammar σ ε) (Holds : σ → Bool → Prop) : Prop where
  pending : ∀ {m}, Holds m true → g.isDone m = false
  keeps : ∀ {m isOpen} (b), Holds m isOpen → Keeps Holds isOpen (g.move m b)

section Orderly

variable {Holds : σ → Bool → Prop} (orderly : g.Orderly Holds)
include orderly

theorem Orderly.read (holds : Holds s.memory s.token.isSome) (step : g.read s b = .ok next) :
    Holds next.memory next.token.isSome := by
  have keeps := orderly.keeps b holds
  refine read_leads (fun m token => Holds m token.isSome) ?_ step
  cases moves : g.move s.memory b with
  | outside memory =>
    rw [moves] at keeps
    exact keeps
  | first memory =>
    rw [moves] at keeps
    exact keeps.2
  | inside memory =>
    rw [moves] at keeps
    show Holds memory (s.token.map _).isSome
    rwa [Option.isSome_map]
  | behind use | last use =>
    rw [moves] at keeps
    exact fun next used => keeps _ next used
  | refuse fault => trivial

theorem Orderly.readAll (holds : Holds s.memory s.token.isSome) (bytes : Bytes) :
    Holds (g.readAll s bytes).session.memory (g.readAll s bytes).session.token.isSome := by
  induction bytes generalizing s with
  | nil => exact holds
  | cons b rest ih =>
    unfold Grammar.readAll
    split
    · exact holds
    · split
      · exact holds
      · exact ih (orderly.read holds ‹_›)

theorem Orderly.settle_feed (unlimited : s.limit = none)
    (holds : Holds s.memory s.token.isSome) {chunk : Bytes}
    (settled : settle (g.feed s chunk) = .ok next) : Holds next.memory next.token.isSome := by
  obtain ⟨_, rfl⟩ := eq_of_settle_feed unlimited settled
  exact orderly.readAll holds chunk

/-- Where the stream has ended, no token is open. -/
theorem Orderly.openBytes_of_done (holds : Holds s.memory s.token.isSome)
    (done : g.isDone s.memory = true) : s.openBytes = [] := by
  rw [Session.openBytes]
  cases opened : s.token with
  | none => rfl
  | some token =>
    rw [opened] at holds
    exact absurd (orderly.pending holds) (by simp [done])

/-- An open token is closed by the next byte, or it is still open behind it and no shorter. -/
theorem Orderly.closed_or_open (holds : Holds s.memory s.token.isSome)
    (opened : s.token.isSome = true) (step : g.read s b = .ok next) :
    (∃ token ∈ g.closed s b, s.openBytes.length ≤ token.length) ∨
      (next.token.isSome = true ∧ s.openBytes.length ≤ next.openBytes.length) := by
  have keeps := orderly.keeps b holds
  have grown : s.openBytes.length ≤ (s.extend [b]).openBytes.length := by
    obtain ⟨token, opened⟩ := Option.isSome_iff_exists.mp opened
    simp [Session.openBytes, Session.extend, opened]
  unfold closed
  unfold Grammar.read at step
  cases moves : g.move s.memory b with
  | outside memory =>
    simp only [moves, Except.ok.injEq] at step
    subst step
    exact .inr ⟨opened, Nat.le_refl _⟩
  | first memory => simp [moves, Keeps, opened] at keeps
  | inside memory =>
    simp only [moves, Except.ok.injEq] at step
    subst step
    exact .inr ⟨by simpa [Session.extend] using opened, grown⟩
  | behind use => exact .inl ⟨_, rfl, Nat.le_refl _⟩
  | last use => exact .inl ⟨_, rfl, grown⟩
  | refuse fault => simp [moves] at step

/-- An open token only grows until it is closed, so it is no longer than the tokens to come. -/
theorem Orderly.openBytes_le (holds : Holds s.memory s.token.isSome)
    (pending : g.isDone s.memory = false) (clean : (g.readAll s bytes).fault = none)
    (fits : g.Fits limit s bytes) : s.openBytes.length ≤ limit := by
  induction bytes generalizing s with
  | nil => exact (fits_nil_iff pending).mp fits
  | cons b rest ih =>
    cases opened : s.token.isSome with
    | false =>
      have none : s.token = none := by simpa using opened
      simp [Session.openBytes, none]
    | true =>
      cases step : g.read s b with
      | error refusal => simp [Grammar.readAll, pending, step] at clean
      | ok next =>
        obtain ⟨closes, later⟩ := (fits_cons_iff_of_ok pending step).mp fits
        obtain ⟨token, closed, le⟩ | ⟨still, le⟩ := orderly.closed_or_open holds opened step
        · exact Nat.le_trans le (closes token closed)
        · have holds' := orderly.read holds step
          have clean : (g.readAll next rest).fault = none := by
            simpa [Grammar.readAll, pending, step] using clean
          exact Nat.le_trans le (ih holds' (orderly.pending (still ▸ holds')) clean later)

/-- The tokens of a stream are short enough iff those of its two parts are. A token that
is open between them is longer in the whole stream than in the first part. -/
theorem Orderly.fits_append_iff (holds : Holds s.memory s.token.isSome) {left right : Bytes}
    (clean : (g.readAll s (left ++ right)).fault = none) :
    g.Fits limit s (left ++ right) ↔
      g.Fits limit s left ∧ g.Fits limit (g.readAll s left).session right := by
  induction left generalizing s with
  | nil =>
    -- What is open between the two parts only gets longer in the second one.
    refine ⟨fun fits => ⟨?_, fits⟩, And.right⟩
    cases pending : g.isDone s.memory with
    | true => exact fits_of_done pending []
    | false => exact (fits_nil_iff pending).mpr (orderly.openBytes_le holds pending clean fits)
  | cons b rest ih =>
    cases pending : g.isDone s.memory with
    | true => simp [fits_of_done pending, readAll_of_done pending]
    | false =>
      cases step : g.read s b with
      | error refusal => simp [Grammar.readAll, pending, step] at clean
      | ok next =>
        have behind : (g.readAll s (b :: rest)).session = (g.readAll next rest).session := by
          simp [Grammar.readAll, pending, step]
        have clean : (g.readAll next (rest ++ right)).fault = none := by
          simpa [Grammar.readAll, pending, step] using clean
        rw [List.cons_append, fits_cons_iff_of_ok pending step, fits_cons_iff_of_ok pending step,
          behind, ih (orderly.read holds step) clean, and_assoc]

/-- The same, of two chunks. -/
theorem Orderly.fits_append_iff_of_settle (unlimited : s.limit = none)
    (holds : Holds s.memory s.token.isSome) {left right : Bytes}
    (settled : settle (g.feed s left) = .ok next)
    (settled' : settle (g.feed next right) = .ok last) :
    g.Fits limit s (left ++ right) ↔ g.Fits limit s left ∧ g.Fits limit next right := by
  have joined := (settle_feed_append_eq_ok_iff unlimited).mpr ⟨next, settled, settled'⟩
  obtain ⟨clean, _⟩ := eq_of_settle_feed unlimited joined
  obtain ⟨_, rfl⟩ := eq_of_settle_feed unlimited settled
  rw [orderly.fits_append_iff holds clean, fits_recount]

/-- What is held over to the next chunk is as long as the last of the tokens so far. -/
theorem Orderly.openBytes_le_of_settle_feed (unlimited : s.limit = none)
    (holds : Holds s.memory s.token.isSome) (settled : settle (g.feed s bytes) = .ok next)
    (fits : g.Fits limit s bytes) : next.openBytes.length ≤ limit := by
  have holds' := orderly.settle_feed unlimited holds settled
  cases done : g.isDone next.memory with
  | true => simp [orderly.openBytes_of_done holds' done]
  | false =>
    -- Nothing comes behind the chunk, so the open token counts as the last one.
    have ended : settle (g.feed next []) = .ok next := by
      rw [Grammar.settle_feed (limit_of_settle_feed unlimited settled)]
      rfl
    rw [← List.append_nil bytes, orderly.fits_append_iff_of_settle unlimited holds settled ended]
      at fits
    exact (fits_nil_iff done).mp fits.2

end Orderly

/-! ## Any number of chunks -/

/-- Feeding has succeeded iff it ends in a session, and then that is the one it leaves. -/
theorem settle_eq_ok_iff {run : Session σ × Except (Failure ε) Bool} :
    settle run = .ok last ↔ run.2.isOk ∧ run.1 = last := by
  obtain ⟨s, failure | answer⟩ := run <;> simp [settle, Except.map, Except.isOk, Except.toBool]

section Chunks

variable {Holds : σ → Bool → Prop} {chunks : List Bytes}

/-- Never more bytes than the limit are held over to the next chunk. -/
theorem openBytes_le_of_settle_feedAll (orderly : g.Orderly Holds) (unlimited : s.limit = none)
    (holds : Holds s.memory s.token.isSome) (fits : s.openBytes.length ≤ limit)
    (settled : settle (g.feedAll (s.limited limit) chunks) = .ok last) :
    last.openBytes.length ≤ limit := by
  induction chunks generalizing s with
  | nil =>
    cases settled
    exact fits
  | cons chunk chunks ih =>
    obtain ⟨_, first, settled⟩ := settle_feedAll_cons_eq_ok_iff.mp settled
    obtain ⟨next, free, short, rfl⟩ := (settle_feed_limited_eq_ok_iff unlimited).mp first
    exact ih (limit_of_settle_feed unlimited free) (orderly.settle_feed unlimited holds free)
      (orderly.openBytes_le_of_settle_feed unlimited holds free short) settled

/-- However it is cut, a stream is accepted under a limit iff it is accepted without one and
no token of it is too long. -/
theorem settle_feedAll_limited_eq_ok_iff (orderly : g.Orderly Holds)
    (unlimited : s.limit = none) (holds : Holds s.memory s.token.isSome)
    (fits : s.openBytes.length ≤ limit) :
    (∃ last, settle (g.feedAll (s.limited limit) chunks) = .ok last) ↔
      (∃ last, settle (g.feed s chunks.flatten) = .ok last) ∧ g.Fits limit s chunks.flatten := by
  induction chunks generalizing s with
  | nil =>
    refine iff_of_true ⟨_, rfl⟩ ⟨?_, ?_⟩
    · rw [List.flatten_nil, settle_feed unlimited]
      exact ⟨_, rfl⟩
    · cases pending : g.isDone s.memory with
      | true => exact fits_of_done pending _
      | false => exact (fits_nil_iff pending).mpr fits
  | cons chunk chunks ih =>
    have rest {next : Session σ} (free : settle (g.feed s chunk) = .ok next)
        (short : g.Fits limit s chunk) :=
      ih (limit_of_settle_feed unlimited free) (orderly.settle_feed unlimited holds free)
        (orderly.openBytes_le_of_settle_feed unlimited holds free short)
    rw [List.flatten_cons]
    constructor
    · rintro ⟨last, settled⟩
      obtain ⟨_, first, settled⟩ := settle_feedAll_cons_eq_ok_iff.mp settled
      obtain ⟨next, free, short, rfl⟩ := (settle_feed_limited_eq_ok_iff unlimited).mp first
      obtain ⟨⟨last, later⟩, fits⟩ := (rest free short).mp ⟨last, settled⟩
      exact ⟨⟨last, (settle_feed_append_eq_ok_iff unlimited).mpr ⟨next, free, later⟩⟩,
        (orderly.fits_append_iff_of_settle unlimited holds free later).mpr ⟨short, fits⟩⟩
    · rintro ⟨⟨last, joined⟩, fits⟩
      obtain ⟨next, free, later⟩ := (settle_feed_append_eq_ok_iff unlimited).mp joined
      obtain ⟨short, fits⟩ :=
        (orderly.fits_append_iff_of_settle unlimited holds free later).mp fits
      obtain ⟨last, settled⟩ := (rest free short).mpr ⟨⟨last, later⟩, fits⟩
      exact ⟨last, settle_feedAll_cons_eq_ok_iff.mpr
        ⟨_, (settle_feed_limited_eq_ok_iff unlimited).mpr ⟨next, free, short, rfl⟩, settled⟩⟩

/-- The same, of the answers. -/
theorem isOk_feedAll_limited_iff (orderly : g.Orderly Holds) (unlimited : s.limit = none)
    (holds : Holds s.memory s.token.isSome) (fits : s.openBytes.length ≤ limit) :
    (g.feedAll (s.limited limit) chunks).2.isOk ↔
      (g.feed s chunks.flatten).2.isOk ∧ g.Fits limit s chunks.flatten := by
  have accepted : (∃ last, settle (g.feedAll (s.limited limit) chunks) = .ok last) ↔ _ :=
    settle_feedAll_limited_eq_ok_iff orderly unlimited holds fits
  simpa [settle_eq_ok_iff] using accepted

theorem openBytes_le_of_feedAll_limited (orderly : g.Orderly Holds) (unlimited : s.limit = none)
    (holds : Holds s.memory s.token.isSome) (fits : s.openBytes.length ≤ limit)
    (accepted : (g.feedAll (s.limited limit) chunks).2.isOk) :
    (g.feedAll (s.limited limit) chunks).1.openBytes.length ≤ limit :=
  openBytes_le_of_settle_feedAll orderly unlimited holds fits
    (settle_eq_ok_iff.mpr ⟨accepted, rfl⟩)

end Chunks

end Grammar

end Octets.Stream
