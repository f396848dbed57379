import Octets.Proofs.Stream.Limit
import Octets.Proofs.Stream.Trace

/-!
# The tokens along a trace

The tokens of a stream are those that are closed along a trace over its front, and then those
of the rest, from where the trace ends. So they can be told piece by piece, as the trace is put
together.

A trace that closes a token leaves a shorter one open than it has read bytes. In reverse, if all
bytes of a trace are in the token that is open at its end, no token was closed on the way.

## Main definitions

* `Grammar.Closes` — a trace, and the tokens that are closed along it

## Main results

* `Closes.append` — the tokens of two traces, one behind the other
* `Reads.closes_nil` — a trace into a token closes none
* `feedAll_limited_of_closes`, `feedAll_limited_of_closes_of_long` — what the tokens say about a
  stream that is read under a limit
-/

namespace Octets.Stream.Grammar

variable {σ ε : Type} {g : Grammar σ ε} {s next last : Session σ} {bytes front back : Bytes}
  {tokens more : List Bytes} {b : UInt8}

/-- A trace, and the tokens that are closed along it. -/
structure Closes (g : Grammar σ ε) (s : Session σ) (bytes : Bytes) (tokens : List Bytes)
    (last : Session σ) : Prop where
  reads : g.Reads s bytes last
  tokens_append : ∀ back, g.tokens s (bytes ++ back) = tokens ++ g.tokens last back

namespace Closes

theorem nil (s : Session σ) : g.Closes s [] [] s := ⟨.nil s, fun _ => rfl⟩

/-- The tokens of two traces, one behind the other. -/
theorem append (left : g.Closes s front tokens next) (right : g.Closes next back more last) :
    g.Closes s (front ++ back) (tokens ++ more) last := by
  refine ⟨left.reads.append right.reads, fun rest => ?_⟩
  rw [List.append_assoc, left.tokens_append, right.tokens_append, List.append_assoc]

theorem single (pending : g.isDone s.memory = false) (step : g.read s b = .ok next) :
    g.Closes s [b] (g.closed s b).toList next :=
  ⟨.single pending step, fun _ => tokens_cons_of_ok pending step⟩

theorem of_outside {m : σ} (pending : g.isDone s.memory = false)
    (moves : g.move s.memory b = .outside m) : g.Closes s [b] [] { s with memory := m } := by
  have none : g.closed s b = none := by rw [closed, moves]
  have step := single pending (read_outside moves)
  rwa [none] at step

theorem of_behind {m : σ} {use : Bytes → Except ε σ} (unlimited : s.limit = none)
    (pending : g.isDone s.memory = false) (moves : g.move s.memory b = .behind use)
    (used : use s.openBytes = .ok m) :
    g.Closes s [b] [s.openBytes] { s with memory := m, token := none } := by
  have some : g.closed s b = some s.openBytes := by rw [closed, moves]
  have step := single pending (read_behind unlimited moves used)
  rwa [some] at step

theorem of_last {m : σ} {use : Bytes → Except ε σ} (unlimited : s.limit = none)
    (pending : g.isDone s.memory = false) (moves : g.move s.memory b = .last use)
    (used : use (s.extend [b]).openBytes = .ok m) :
    g.Closes s [b] [(s.extend [b]).openBytes] { s with memory := m, token := none } := by
  have some : g.closed s b = some (s.extend [b]).openBytes := by rw [closed, moves]
  have step := single pending (read_last unlimited moves used)
  rwa [some] at step

/-- A trace to the end of the stream tells all tokens. -/
theorem tokens_eq (trace : g.Closes s front tokens last) (done : g.isDone last.memory = true)
    (back : Bytes) : g.tokens s (front ++ back) = tokens := by
  rw [trace.tokens_append, tokens_of_done done, List.append_nil]

end Closes

/-! ## Traces into a token -/

/-- A byte that closes a token leaves none open; any other adds at most itself. -/
theorem openBytes_of_read (step : g.read s b = .ok next) :
    next.openBytes = [] ∨
      g.closed s b = none ∧ next.openBytes.length ≤ s.openBytes.length + 1 := by
  have of_close {s : Session σ} {use : Bytes → Except ε σ} (closes : g.close s use = .ok next) :
      next.openBytes = [] := by
    rw [close_frame closes]
    rfl
  unfold read at step
  cases moves : g.move s.memory b with
  | outside m =>
    simp only [moves, Except.ok.injEq] at step
    subst step
    exact .inr ⟨by rw [closed, moves], Nat.le_succ _⟩
  | first m =>
    simp only [moves, Except.ok.injEq] at step
    subst step
    exact .inr ⟨by rw [closed, moves], Nat.le_add_left _ _⟩
  | inside m =>
    simp only [moves, Except.ok.injEq] at step
    subst step
    refine .inr ⟨by rw [closed, moves], ?_⟩
    cases opened : s.token <;> simp [Session.openBytes, Session.extend, opened]
  | behind use =>
    simp only [moves] at step
    split at step <;> cases step
    exact .inl (of_close ‹_›)
  | last use =>
    simp only [moves] at step
    split at step <;> cases step
    exact .inl (of_close ‹_›)
  | refuse fault => simp [moves] at step

theorem Reads.length_openBytes_le (trace : g.Reads s bytes last) :
    last.openBytes.length ≤ s.openBytes.length + bytes.length := by
  induction trace with
  | nil _ => exact Nat.le_refl _
  | cons _ step _ ih =>
    rw [List.length_cons]
    obtain empty | ⟨_, le⟩ := openBytes_of_read step
    · rw [empty, List.length_nil] at ih
      omega
    · omega

/-- A trace closes no token if the token that is open at its end holds all of its bytes. -/
theorem Reads.closes_nil (trace : g.Reads s bytes last)
    (gathered : s.openBytes.length + bytes.length ≤ last.openBytes.length) :
    g.Closes s bytes [] last := by
  induction trace with
  | nil s => exact .nil s
  | @cons s next last b rest pending step rest' ih =>
    have bound := rest'.length_openBytes_le
    rw [List.length_cons] at gathered
    obtain empty | ⟨none, le⟩ := openBytes_of_read step
    -- The token that is open at the end began later, and lacks this byte.
    · rw [empty, List.length_nil] at bound
      omega
    · have first := Closes.single pending step
      rw [none] at first
      exact first.append (ih (by omega))

/-! ## Streams under a limit -/

section Limit

variable {Holds : σ → Bool → Prop} (orderly : g.Orderly Holds) (unlimited : s.limit = none)
  (holds : Holds s.memory s.token.isSome) {limit : Nat} (open_le : s.openBytes.length ≤ limit)
  (trace : g.Closes s front tokens last) (done : g.isDone last.memory = true)
  {chunks : List Bytes} (cut : chunks.flatten = front ++ back)
include orderly unlimited holds open_le trace done cut

theorem isOk_feedAll_limited_iff_of_closes :
    (g.feedAll (s.limited limit) chunks).2.isOk ↔ ∀ token ∈ tokens, token.length ≤ limit := by
  have complete : g.Completes s front last := ⟨trace.reads, done⟩
  rw [isOk_feedAll_limited_iff orderly unlimited holds open_le, cut,
    feed_of_completes unlimited complete, Fits, trace.tokens_eq done]
  exact and_iff_right rfl

/-- Where the tokens of a stream are short enough, it is read under a limit as without one. -/
theorem feedAll_limited_of_closes (fit : ∀ token ∈ tokens, token.length ≤ limit) :
    g.feedAll (s.limited limit) chunks =
      ((last.recount (s.consumed + front.length)).limited limit, .ok true) := by
  have free := feedAll_of_completes unlimited ⟨trace.reads, done⟩ cut
  have accepted :=
    (isOk_feedAll_limited_iff_of_closes orderly unlimited holds open_le trace done cut).mpr fit
  have settled : settle (g.feedAll (s.limited limit) chunks) =
      .ok ((last.recount (s.consumed + front.length)).limited limit) := by
    -- What is not read as without the limit is refused.
    obtain same | ⟨offset, refused⟩ := settle_feedAll_limited (g := g) unlimited limit chunks
    · rw [same, free]
      rfl
    · cases refused.symm.trans (settle_eq_ok_iff.mpr ⟨accepted, rfl⟩)
  rw [feedAll_of_settle settled, Session.memory_limited, Session.recount_memory, done]

/-- Otherwise it is refused, as a token of it is too long. -/
theorem feedAll_limited_of_closes_of_long (long : ¬ ∀ token ∈ tokens, token.length ≤ limit) :
    ∃ offset, (g.feedAll (s.limited limit) chunks).2 = .error ⟨g.tooLong limit, offset⟩ := by
  have refused := long ∘
    (isOk_feedAll_limited_iff_of_closes orderly unlimited holds open_le trace done cut).mp
  have free := feedAll_of_completes unlimited ⟨trace.reads, done⟩ cut
  obtain same | ⟨offset, failed⟩ := settle_feedAll_limited (g := g) unlimited limit chunks
  · rw [free] at same
    exact absurd (settle_eq_ok_iff.mp same).1 refused
  · refine ⟨offset, ?_⟩
    rw [feedAll_answer, failed]
    rfl

end Limit

end Octets.Stream.Grammar
