import Octets.Stream.Grammar

/-!
# Invariants of a session

What holds of the memory of a session and of its open token is kept by reading if every move
keeps it: a byte outside of every token leaves the token alone, the first byte of one opens it,
one more byte extends it, and a byte behind or at the end of one closes it. A move that closes
the token has to keep the invariant only where there is a use for the token. Where reading fails,
either the move does, or the token that it closes is too long.

## Main definitions

* `Move.Leads` — a move keeps an invariant of the memory and the open token
* `Move.MayFail` — a move may come to a fault

## Main results

* `Grammar.read_leads` — reading a byte keeps what its move keeps
* `Grammar.mayFail_of_read` — a byte is refused for a fault of its move, or for a long token
-/

namespace Octets.Stream

variable {σ ε : Type} {Holds : σ → Option Bytes → Prop}

/-- What a move makes of the memory and of the open token has a property. -/
def Move.Leads (Holds : σ → Option Bytes → Prop) (token : Option Bytes) (b : UInt8) :
    Move σ ε → Prop
  | .outside next => Holds next token
  | .first next => Holds next (some [b])
  | .inside next => Holds next (token.map (· ++ [b]))
  | .behind use => ∀ next, use (token.getD []) = .ok next → Holds next none
  | .last use => ∀ next, use ((token.map (· ++ [b])).getD []) = .ok next → Holds next none
  | .refuse _ => True

/-- A move may come to a fault. -/
def Move.MayFail (fault : ε) : Move σ ε → Prop
  | .outside _ | .first _ | .inside _ => False
  | .behind use => ∃ token, use token = .error fault
  | .last use => ∃ token, use token = .error fault
  | .refuse found => found = fault

namespace Grammar

variable {g : Grammar σ ε} {s next : Session σ} {b : UInt8} {fault : ε} {n : Nat}

/-- A session that has closed its token has found a use for it. -/
theorem close_eq_ok {use : Bytes → Except ε σ} (closed : g.close s use = .ok next) :
    s.exceeded = none ∧ use s.openBytes = .ok next.memory ∧ next.token = none := by
  unfold close collect at closed
  cases fits : s.exceeded with
  | some limit => simp [fits] at closed
  | none =>
    simp only [fits] at closed
    split at closed
    · cases closed
    · cases closed
      exact ⟨rfl, ‹_›, rfl⟩

/-- Reading a byte keeps what the move keeps. -/
theorem read_leads (Holds : σ → Option Bytes → Prop)
    (leads : (g.move s.memory b).Leads Holds s.token b)
    (step : g.read s b = .ok next) : Holds next.memory next.token := by
  unfold read at step
  cases moves : g.move s.memory b with
  | outside memory | first memory | inside memory =>
    simp only [moves, Except.ok.injEq] at step leads
    exact step ▸ leads
  | behind use =>
    simp only [moves] at step leads
    split at step <;> cases step
    obtain ⟨_, used, closed⟩ := close_eq_ok ‹_›
    exact closed ▸ leads _ used
  | last use =>
    simp only [moves] at step leads
    split at step <;> cases step
    obtain ⟨_, used, closed⟩ := close_eq_ok ‹_›
    exact closed ▸ leads _ used
  | refuse fault => simp [moves] at step

/-- A session that cannot close its token has no use for it, or it is too long. -/
theorem close_eq_error {use : Bytes → Except ε σ} (refused : g.close s use = .error fault) :
    use s.openBytes = .error fault ∨ ∃ limit, fault = g.tooLong limit := by
  unfold close collect at refused
  cases fits : s.exceeded with
  | some limit =>
    simp only [fits, Except.error.injEq] at refused
    exact .inr ⟨limit, refused.symm⟩
  | none =>
    simp only [fits] at refused
    split at refused
    · cases refused
      exact .inl ‹_›
    · cases refused

/-- A byte is refused for a fault of its move, or for a token that is too long. -/
theorem mayFail_of_read (refused : g.read s b = .error (fault, n)) :
    (g.move s.memory b).MayFail fault ∨ ∃ limit, fault = g.tooLong limit := by
  unfold read at refused
  cases moves : g.move s.memory b with
  | outside memory | first memory | inside memory => simp [moves] at refused
  | behind use | last use =>
    simp only [moves] at refused
    split at refused <;> cases refused
    exact (close_eq_error ‹_›).imp_left fun used => ⟨_, used⟩
  | refuse found =>
    simp only [moves] at refused
    cases refused
    exact .inl rfl

end Grammar

end Octets.Stream
