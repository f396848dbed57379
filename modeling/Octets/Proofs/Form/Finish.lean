import Octets.Form.Body

/-!
# Finishing twice

A body that may not end where it ends stays unfinished however often it is said to have ended,
and one that may end says the same each time. There is one exception. The token of an open
value is closed before it is decoded, so a value that cannot be decoded is refused only once;
the second time nothing is left of it, and the body is accepted with an empty value.

## Main definitions

* `Reader.HoldsUndecodable` — the open value is not in the encoding of forms

## Main results

* `Reader.finish_cases` — all that the end of a body can come to
* `Reader.finish_finish` — what is answered the second time
* `Reader.finish_finish_accepts_refused` — a body that is refused and then accepted
-/

namespace Octets.Form.Reader

/-- The open value is short enough but not in the encoding of forms. -/
def HoldsUndecodable (r : Reader) : Prop :=
  r.session.memory.phase = .valueRest ∧ r.session.exceeded = none ∧
    decode r.session.openBytes = none

instance (r : Reader) : Decidable r.HoldsUndecodable :=
  inferInstanceAs (Decidable (_ ∧ _ ∧ _))

/-- The reader without its open token. -/
def closeToken (r : Reader) : Reader := ⟨{ r.session with token := none }⟩

variable {r : Reader}

theorem collect_eq_error {fault : Fault} (refused : grammar.collect r.session = .error fault) :
    r.session.exceeded ≠ none := by
  intro short
  rw [Stream.Grammar.collect, short] at refused
  cases refused

theorem collect_eq_ok {token : Bytes} (closed : grammar.collect r.session = .ok token) :
    r.session.exceeded = none ∧ r.session.openBytes = token := by
  unfold Stream.Grammar.collect at closed
  split at closed
  · cases closed
  · exact ⟨‹_›, Except.ok.inj closed⟩

/-- The end of a body whose value is open: the value is too long, cannot be decoded, or is
stored. -/
theorem finish_of_valueRest (inside : r.session.memory.phase = .valueRest) :
    (∃ m : Memory, r.finish = (r.closeToken.withMemory (m.enter .done), .ok m.form)) ∨
      (¬ r.HoldsUndecodable ∧ ∃ fault, r.finish = (r, .error ⟨fault, r.consumed⟩)) ∨
        (r.HoldsUndecodable ∧ r.finish = (r.closeToken, .error ⟨.value, r.consumed⟩)) := by
  cases closed : grammar.collect r.session with
  | error fault =>
    have long := collect_eq_error closed
    refine .inr (.inl ⟨fun undecodable => long undecodable.2.1, fault, ?_⟩)
    simp only [finish, inside, closed]
  | ok token =>
    obtain ⟨short, rfl⟩ := collect_eq_ok closed
    cases decoded : decode r.session.openBytes with
    | none =>
      refine .inr (.inr ⟨⟨inside, short, decoded⟩, ?_⟩)
      simp only [finish, inside, closed, Memory.storeToken, decoded]
      rfl
    | some value =>
      refine .inl ⟨r.session.memory.storeValue (Utf8.decodeLossy value), ?_⟩
      simp only [finish, inside, closed, Memory.storeToken, decoded]
      rfl

/-- All that the end of a body can come to: it is accepted, or refused by a reader that stays
as it was, or refused for a value whose token is closed all the same. -/
theorem finish_cases (r : Reader) :
    (∃ (last : Reader) (m : Memory),
        r.finish = (last.withMemory (m.enter .done), .ok m.form)) ∨
      (¬ r.HoldsUndecodable ∧ ∃ fault, r.finish = (r, .error ⟨fault, r.consumed⟩)) ∨
        (r.HoldsUndecodable ∧ r.finish = (r.closeToken, .error ⟨.value, r.consumed⟩)) := by
  cases phase : r.session.memory.phase with
  | valueRest =>
    obtain ⟨m, accepted⟩ | refused := finish_of_valueRest phase
    · exact .inl ⟨r.closeToken, m, accepted⟩
    · exact .inr refused
  | start => exact .inl ⟨r, r.session.memory, by simp only [finish, phase]⟩
  | nextKey => exact .inl ⟨r, r.session.memory, by simp only [finish, phase]⟩
  | done => exact .inl ⟨r, r.session.memory, by simp only [finish, phase]⟩
  | value => exact .inl ⟨r, r.session.memory.storeValue "", by simp only [finish, phase]⟩
  | contentStart =>
    refine .inr (.inl ⟨fun undecodable => ?_, .contentBody, by simp only [finish, phase]⟩)
    exact absurd (phase.symm.trans undecodable.1) (by decide)
  | content matched =>
    refine .inr (.inl ⟨fun undecodable => ?_, .contentBody, by simp only [finish, phase]⟩)
    exact absurd (phase.symm.trans undecodable.1) (by simp)
  | _ =>
    refine .inr (.inl ⟨fun undecodable => ?_, .incomplete, by simp only [finish, phase]⟩)
    exact absurd (phase.symm.trans undecodable.1) (by simp)

/-- A body that has been accepted is accepted again, and says the same. -/
theorem finish_withMemory_done (last : Reader) (m : Memory) :
    (last.withMemory (m.enter .done)).finish =
      (last.withMemory (m.enter .done), .ok m.form) := rfl

/-- Once its token is closed, an open value is empty. -/
theorem finish_closeToken (inside : r.session.memory.phase = .valueRest) :
    r.closeToken.finish.2 = .ok (r.session.memory.storeValue "").form := by
  have still : r.closeToken.session.memory.phase = .valueRest := inside
  have collected : grammar.collect r.closeToken.session = .ok [] := rfl
  simp only [finish, still, collected, Memory.storeToken, decode_nil]
  rfl

/-- Saying twice that a body has ended. An accepted body is accepted again with what it says.
A refusal leaves what has been read; the reader stays as it was and refuses in the same way
again, unless it holds a value that cannot be decoded: that body is then accepted, with nothing
for a value. -/
theorem finish_finish (r : Reader) :
    (∀ next form, r.finish = (next, .ok form) → next.finish = (next, .ok form)) ∧
      ∀ next e, r.finish = (next, .error e) →
        next.form = r.form ∧
          (¬ r.HoldsUndecodable → next = r ∧ next.finish = (next, .error e)) ∧
            (r.HoldsUndecodable →
              next.finish.2 = .ok (r.session.memory.storeValue "").form) := by
  obtain ⟨last, m, accepted⟩ | ⟨holds, fault, refused⟩ | ⟨holds, refused⟩ := finish_cases r
  · rw [accepted]
    refine ⟨fun next form same => ?_, fun next e same => ?_⟩
    · obtain ⟨rfl, same⟩ := Prod.mk.inj same
      cases same
      exact finish_withMemory_done last m
    · cases (Prod.mk.inj same).2
  · rw [refused]
    refine ⟨fun next form same => ?_, fun next e same => ?_⟩
    · cases (Prod.mk.inj same).2
    · obtain ⟨rfl, same⟩ := Prod.mk.inj same
      cases same
      exact ⟨rfl, fun _ => ⟨rfl, refused⟩, fun undecodable => absurd undecodable holds⟩
  · rw [refused]
    refine ⟨fun next form same => ?_, fun next e same => ?_⟩
    · cases (Prod.mk.inj same).2
    · obtain ⟨rfl, same⟩ := Prod.mk.inj same
      exact ⟨rfl, fun decodes => absurd holds decodes, fun _ => finish_closeToken holds.1⟩

/-- A value that ends in a whole escape is accepted twice, and a key without a value refused
twice. Half an escape is refused first and accepted then. -/
theorem finish_finish_wholeAndHalfEscape :
    let fed (text : String) := ((start ⟨16, some 4⟩).feedAll [Bytes.ofText text]).1
    let whole := fed "a=%41"
    let key := fed "a=1&b"
    let half := fed "a=%4"
    (∃ next form, whole.finish = (next, .ok form) ∧ next.finish = (next, .ok form)) ∧
      (key.finish = (key, .error ⟨.incomplete, 5⟩) ∧ ¬ key.HoldsUndecodable ∧
        key.finish = (key, .error ⟨.incomplete, 5⟩)) ∧
        half.finish = (half.closeToken, .error ⟨.value, 4⟩) ∧ half.HoldsUndecodable ∧
          half.closeToken.finish.2 = .ok (half.session.memory.storeValue "").form := by
  intro fed whole key half
  have refusedKey : key.finish = (key, .error ⟨.incomplete, 5⟩) := by with_unfolding_all rfl
  have decodes : ¬ key.HoldsUndecodable := by decide +kernel
  have refusedHalf : half.finish = (half.closeToken, .error ⟨.value, 4⟩) := by
    with_unfolding_all rfl
  have undecodable : half.HoldsUndecodable := by decide +kernel
  refine ⟨?_, ⟨refusedKey, decodes, ?_⟩, refusedHalf, undecodable, ?_⟩
  · rcases accepted : whole.finish with ⟨next, failure | form⟩
    · have read : whole.finish.2.isOk = true := by decide +kernel
      simp [accepted, Except.isOk, Except.toBool] at read
    · exact ⟨next, form, rfl, (finish_finish whole).1 next form accepted⟩
  · exact (((finish_finish key).2 _ _ refusedKey).2.1 decodes).2
  · exact ((finish_finish half).2 _ _ refusedHalf).2.2 undecodable

/-- A body whose last value is a lone percent sign is refused when it is first said to have
ended, and accepted the second time. -/
theorem finish_finish_accepts_refused :
    let fed := (start ⟨16, none⟩).feedAll [Bytes.ofText "a=%"]
    fed.2 = .ok false ∧ fed.1.finish.2.map (·.get? "a") = .error ⟨.value, 3⟩ ∧
      fed.1.finish.1.finish.2.map (·.get? "a") = .ok (some "") :=
  ⟨by with_unfolding_all rfl, by with_unfolding_all rfl, by with_unfolding_all rfl⟩

end Octets.Form.Reader
