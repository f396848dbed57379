import Octets.Proofs.Stream.Invariant
import Octets.Proofs.Stream.Trace

/-!
# The byte that is refused

A failure names an offset of the stream. In a *prompt* grammar that is the index of a byte: a
fault is found at the first byte that does not fit, while that byte is still unread. The only
other way to fail would be to refuse a token together with its last byte, and a prompt grammar
takes every token that it reads up to its last byte.

So the bytes in front of the offset are read without a fault, one byte more brings the fault,
and the bytes behind it do not count.

## Main definitions

* `Grammar.Prompt` — grammars that take a token which they have read to its last byte
* `Grammar.RefusesAt` — a byte that is refused behind a trace

## Main results

* `Grammar.Prompt.feed_eq_error_iff` — a failure is a byte that is refused
* `Grammar.Prompt.feed_eq_error_iff_take` — which byte that is, said of the front parts of the
  stream
* `Grammar.feed_append_eq_true` — a stream that has not failed, with more bytes behind it
-/

namespace Octets.Stream

variable {σ ε : Type}

/-- What a move makes of a memory from which every token is taken that ends with its last
byte. -/
def Move.IsPrompt (Holds : σ → Prop) : Move σ ε → Prop
  | .outside next => Holds next
  | .first next => Holds next
  | .inside next => Holds next
  | .behind use => ∀ token next, use token = .ok next → Holds next
  | .last use => ∀ token, ∃ next, use token = .ok next ∧ Holds next
  | .refuse _ => True

namespace Grammar

variable {g : Grammar σ ε} {s next last : Session σ} {bytes more : Bytes} {b : UInt8} {n : Nat}
  {fault : ε}

/-- From every memory with the property, and from those that it leads to, a token that is read
up to its last byte is taken. -/
def Prompt (g : Grammar σ ε) (Holds : σ → Prop) : Prop :=
  ∀ m b, Holds m → (g.move m b).IsPrompt Holds

/-- Behind so many bytes, which are read, the next one is refused. -/
def RefusesAt (g : Grammar σ ε) (s : Session σ) (bytes : Bytes) (n : Nat) (fault : ε) : Prop :=
  ∃ front b back last, bytes = front ++ b :: back ∧ front.length = n ∧ g.Reads s front last ∧
    g.isDone last.memory = false ∧ g.read last b = .error (fault, 0)

/-! ## What is refused -/

/-- What stands behind the byte that is refused does not count. -/
theorem RefusesAt.append (refuses : g.RefusesAt s bytes n fault) (more : Bytes) :
    g.RefusesAt s (bytes ++ more) n fault := by
  obtain ⟨front, b, back, last, rfl, length, trace, pending, refused⟩ := refuses
  exact ⟨front, b, back ++ more, last, by simp, length, trace, pending, refused⟩

theorem RefusesAt.readAll (refuses : g.RefusesAt s bytes n fault) :
    ∃ last, g.readAll s bytes = ⟨last, n, some fault⟩ := by
  obtain ⟨front, b, back, last, rfl, rfl, trace, pending, refused⟩ := refuses
  refine ⟨last, ?_⟩
  rw [trace.readAll_append]
  simp [Grammar.readAll, pending, refused]

/-- The answer to bytes that are read to their end. -/
theorem Reads.feed_snd (unlimited : s.limit = none) (trace : g.Reads s bytes last) :
    (g.feed s bytes).2 = .ok (g.isDone last.memory) := by
  have whole := trace.readAll_append []
  rw [List.append_nil] at whole
  rw [feed_of_unlimited unlimited, whole]
  rfl

/-- Bytes that lead on to the end of what the grammar describes, behind others that have not
failed. -/
theorem feed_append_eq_true (unlimited : s.limit = none) {answer : Bool}
    (accepted : (g.feed s bytes).2 = .ok answer)
    (ends : (g.feed (g.feed s bytes).1 more).2 = .ok true) :
    (g.feed s (bytes ++ more)).2 = .ok true := by
  have settled : settle (g.feed s bytes) = .ok (g.feed s bytes).1 := by
    rw [settle, accepted]
    rfl
  rw [feed_answer, settle_feed_append unlimited, settled]
  exact (feed_answer g _ more).symm.trans ends

/-! ## Prompt grammars -/

section Prompt

variable {Holds : σ → Prop} (prompt : g.Prompt Holds)
include prompt

theorem Prompt.read (holds : Holds s.memory) (step : g.read s b = .ok next) :
    Holds next.memory := by
  have move := prompt s.memory b holds
  refine read_leads (fun m _ => Holds m) ?_ step
  cases moves : g.move s.memory b with
  | outside memory | first memory | inside memory =>
    rw [moves] at move
    exact move
  | behind use =>
    rw [moves] at move
    exact fun next used => move _ next used
  | last use =>
    rw [moves] at move
    intro next used
    obtain ⟨memory, taken, holds⟩ := move _
    cases taken.symm.trans used
    exact holds
  | refuse fault => trivial

theorem Prompt.reads (holds : Holds s.memory) (trace : g.Reads s bytes last) :
    Holds last.memory := by
  induction trace with
  | nil _ => exact holds
  | cons _ step _ ih => exact ih (prompt.read holds step)

/-- A fault is found at a byte that is still unread. -/
theorem Prompt.read_error (unlimited : s.limit = none) (holds : Holds s.memory)
    (step : g.read s b = .error (fault, n)) : n = 0 := by
  have move := prompt s.memory b holds
  unfold Grammar.read at step
  cases moves : g.move s.memory b with
  | outside memory | first memory | inside memory => simp [moves] at step
  | behind use =>
    simp only [moves] at step
    split at step <;> cases step
    rfl
  | last use =>
    simp only [moves] at step move
    have unlimited' : (s.extend [b]).limit = none := unlimited
    obtain ⟨memory, taken, _⟩ := move (s.extend [b]).openBytes
    simp [close_of_unlimited unlimited', taken, Except.map] at step
  | refuse fault =>
    simp only [moves] at step
    cases step
    rfl

/-- A reading that comes to a fault stops at the byte that is refused. -/
theorem Prompt.refusesAt_of_fault (unlimited : s.limit = none) (holds : Holds s.memory)
    (refused : (g.readAll s bytes).fault = some fault) :
    g.RefusesAt s bytes (g.readAll s bytes).taken fault := by
  induction bytes generalizing s with
  | nil => cases refused
  | cons b rest ih =>
    unfold Grammar.readAll at refused ⊢
    cases pending : g.isDone s.memory with
    | true => simp [pending] at refused
    | false =>
      cases step : g.read s b with
      | error refusal =>
        obtain ⟨found, taken⟩ := refusal
        obtain rfl := prompt.read_error unlimited holds step
        simp only [pending, step, Bool.false_eq_true, if_false, Option.some.injEq] at refused ⊢
        exact ⟨[], b, rest, s, rfl, rfl, .nil s, pending, refused ▸ step⟩
      | ok next =>
        simp only [pending, step, Bool.false_eq_true, if_false] at refused ⊢
        have unlimited' : next.limit = none := by rw [read_frame step, unlimited]
        obtain ⟨front, c, back, last, rfl, length, trace, pending', refuses⟩ :=
          ih unlimited' (prompt.read holds step) refused
        exact ⟨b :: front, c, back, last, rfl, by rw [List.length_cons, length],
          .cons pending step trace, pending', refuses⟩

/-- A stream fails exactly where a byte of it is refused. -/
theorem Prompt.feed_eq_error_iff (unlimited : s.limit = none) (holds : Holds s.memory) :
    (g.feed s bytes).2 = .error ⟨fault, s.consumed + n⟩ ↔ g.RefusesAt s bytes n fault := by
  rw [feed_of_unlimited unlimited]
  constructor
  · intro failed
    cases found : (g.readAll s bytes).fault with
    | none => simp [found] at failed
    | some other =>
      simp only [found, Except.error.injEq, Failure.mk.injEq, Nat.add_left_cancel_iff] at failed
      obtain ⟨rfl, rfl⟩ := failed
      exact prompt.refusesAt_of_fault unlimited holds found
  · intro refuses
    obtain ⟨last, stopped⟩ := refuses.readAll
    rw [stopped]

/-- The bytes in front of the one that is refused are read, and with it they fail. -/
theorem Prompt.refusesAt_iff (unlimited : s.limit = none) (holds : Holds s.memory) :
    g.RefusesAt s bytes n fault ↔
      n < bytes.length ∧ (g.feed s (bytes.take n)).2 = .ok false ∧
        (g.feed s (bytes.take (n + 1))).2 = .error ⟨fault, s.consumed + n⟩ := by
  rw [prompt.feed_eq_error_iff unlimited holds]
  constructor
  · rintro ⟨front, b, back, last, rfl, rfl, trace, pending, refused⟩
    have cut : (front ++ b :: back).take (front.length + 1) = front ++ [b] := by
      rw [List.take_length_add_append, List.take_succ_cons, List.take_zero]
    refine ⟨by simp, ?_, ?_⟩
    · rw [List.take_left, trace.feed_snd unlimited, pending]
    · rw [cut]
      exact ⟨front, b, [], last, rfl, rfl, trace, pending, refused⟩
  · rintro ⟨_, _, refuses⟩
    rw [← List.take_append_drop (n + 1) bytes]
    exact refuses.append _

/-- The offset of a failure, said of the front parts of the stream. -/
theorem Prompt.feed_eq_error_iff_take (unlimited : s.limit = none) (holds : Holds s.memory) :
    (g.feed s bytes).2 = .error ⟨fault, s.consumed + n⟩ ↔
      n < bytes.length ∧ (g.feed s (bytes.take n)).2 = .ok false ∧
        (g.feed s (bytes.take (n + 1))).2 = .error ⟨fault, s.consumed + n⟩ :=
  (prompt.feed_eq_error_iff unlimited holds).trans (prompt.refusesAt_iff unlimited holds)

end Prompt

end Grammar

end Octets.Stream
