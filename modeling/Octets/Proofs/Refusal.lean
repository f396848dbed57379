import Octets.Proofs.Form.Chunking
import Octets.Proofs.Request.Chunking
import Octets.Proofs.Stream.Refusal

/-!
# Where heads and forms are refused

A reader that fails names the first byte that does not fit. It would have taken the bytes in
front of that byte, and the bytes behind it have no part in the failure.

No token of a head ends with its last byte. The only such tokens of a form are the data of its
parts, and a part is taken in any case: the empty line behind its headers is read only once
they have given it a name.

Of a head, no byte is refused too late. From wherever its reader is, a few bytes more end it.

## Main definitions

* `Head.ending` — bytes that end a head from one of its phases
* `Form.HasName` — the part whose data comes has a name

## Main results

* `Head.grammar_prompt`, `Form.grammar_prompt` — faults are found at unread bytes
* `Head.feed_ending` — every head that is begun can be ended
* `feed_eq_error_iff_refused` — what the offset of a failure says
-/

namespace Octets

/-! ## Request heads -/

namespace Head

open Stream.Grammar (settle)

theorem grammar_prompt : grammar.Prompt fun _ => True := by
  rintro ⟨phase, blanks, head, key⟩ b -
  simp only [grammar]
  split
  · trivial
  · cases phase <;> simp only [visit] <;> (repeat' split) <;>
      simp [Stream.Move.IsPrompt]

/-- Bytes that end a head from a phase: what is begun is gone on with, and then the rest is
as short as can be. -/
def ending : Phase → Bytes
  | .method | .methodRest => Bytes.ofText "A / H\n\n"
  | .uri | .uriRest => Bytes.ofText "/ H\n\n"
  | .version => Bytes.ofText "H\n\n"
  | .versionRest | .lineEnd | .lineFeed | .valueRest => Bytes.ofText "\n\n"
  | .keyRest | .colon => Bytes.ofText ":v\n\n"
  | .value => Bytes.ofText "v\n\n"
  | .key | .lastLineFeed => Bytes.ofText "\n"
  | .done => []

theorem feed_ending {s : Stream.Session Memory} (unlimited : s.limit = none) :
    (grammar.feed s (ending s.memory.phase)).2 = .ok true := by
  obtain ⟨⟨phase, blanks, head, key⟩, token, limit, consumed⟩ := s
  obtain rfl : limit = none := unlimited
  rw [Stream.Grammar.feed_of_unlimited rfl]
  -- What has been read before, and what is skipped, has no part in what may follow.
  cases phase <;> cases blanks <;> cases token <;> rfl

theorem Reader.feed_snd (r : Reader) (bytes : Bytes) :
    (r.feed bytes).2 = (grammar.feed r.session bytes).2 :=
  congrArg Prod.snd (feed_session r bytes)

/-- What has not failed can be gone on with to a whole head. -/
theorem Reader.exists_feed_append_eq_true {r : Reader} (unlimited : r.session.limit = none)
    {bytes : Bytes} {answer : Bool} (accepted : (r.feed bytes).2 = .ok answer) :
    ∃ more, (r.feed (bytes ++ more)).2 = .ok true := by
  simp only [feed_snd] at accepted ⊢
  have settled : settle (grammar.feed r.session bytes) = .ok (grammar.feed r.session bytes).1 := by
    rw [settle, accepted]
    rfl
  have unlimited' := Stream.Grammar.limit_of_settle_feed unlimited settled
  exact ⟨_, Stream.Grammar.feed_append_eq_true unlimited accepted (feed_ending unlimited')⟩

end Head

/-! ## Form bodies -/

namespace Form

/-- The phases between the empty line of a part and the end of its data. -/
def Phase.isData : Phase → Bool
  | contentLineFeed | contentStart | content _ => true
  | _ => false

/-- The part whose data comes has a name. -/
def HasName (m : Memory) : Prop := m.phase.isData = true → m.part.name.isSome = true

/-- A part with a name is taken, whatever its data are. -/
theorem exists_storePart_eq_ok {m : Memory} (named : m.part.name.isSome = true) (token : Bytes) :
    ∃ next, m.storePart token = .ok next := by
  obtain ⟨name, named⟩ := Option.isSome_iff_exists.mp named
  simp only [Memory.storePart, named]
  exact ⟨_, rfl⟩

/-- The data of a part go on, or they end and the part is taken. -/
theorem isPrompt_visitContent {m : Memory} (named : m.part.name.isSome = true) (matched : Nat)
    (b : UInt8) : (visitContent m matched b).IsPrompt HasName := by
  unfold visitContent
  simp only
  split
  · intro token
    obtain ⟨next, stored⟩ := exists_storePart_eq_ok named token
    refine ⟨next.enter .afterBoundary, ?_, ?_⟩
    · show (m.storePart token).map _ = _
      rw [stored]
      rfl
    · exact fun data => nomatch data
  · exact fun _ => named

theorem grammar_prompt : grammar.Prompt HasName := by
  intro m b holds
  -- Behind a token of any other kind the next phase is none of data.
  have entered {next : Except Fault Memory} {phase : Phase} (between : phase.isData = false)
      {last : Memory} (used : next.map (·.enter phase) = .ok last) : HasName last := by
    obtain ⟨_, _, rfl⟩ := Memory.map_enter_eq_ok_iff.mp used
    intro data
    exact absurd (between.symm.trans data) Bool.false_ne_true
  obtain ⟨phase, form, key, delimiter, part⟩ := m
  cases phase with
  | contentLineFeed =>
    simp only [grammar, visit]
    split
    · exact fun _ => holds rfl
    · trivial
  | contentStart => exact fun _ => holds rfl
  | content matched => exact isPrompt_visitContent (holds rfl) matched b
  | header =>
    simp only [grammar, visit]
    split
    · split
      · trivial
      -- The empty line is read only if there is a name.
      · rename_i named
        intro _
        show part.name.isSome = true
        simpa [Option.isSome_iff_ne_none] using named
    · split
      · exact fun data => nomatch data
      · trivial
  | _ =>
    simp only [grammar, visit, visitKey]
    repeat' split
    all_goals first
      | trivial
      | exact fun _ _ used => entered rfl used

end Form

/-! ## Both readers -/

/-- The offset of a failure is the index of the first byte that does not fit: it lies in the
stream, the bytes in front of it are taken, one more byte fails in the same way, and this is
true of no other offset. Of a head, the bytes in front of it can be gone on with to a whole
head. -/
theorem feed_eq_error_iff_refused (capacity : Nat) (stream : Bytes) (offset : Nat) :
    (∀ fault,
      let fresh := Head.Reader.start ⟨capacity, none⟩
      (fresh.feed stream).2 = .error ⟨fault, offset⟩ ↔
        offset < stream.length ∧ (fresh.feed (stream.take offset)).2 = .ok false ∧
          (fresh.feed (stream.take (offset + 1))).2 = .error ⟨fault, offset⟩ ∧
            ∃ more, (fresh.feed (stream.take offset ++ more)).2 = .ok true) ∧
    ∀ fault,
      let fresh := Form.Reader.start ⟨capacity, none⟩
      (fresh.feed stream).2 = .error ⟨fault, offset⟩ ↔
        offset < stream.length ∧ (fresh.feed (stream.take offset)).2 = .ok false ∧
          (fresh.feed (stream.take (offset + 1))).2 = .error ⟨fault, offset⟩ := by
  constructor
  · intro fault fresh
    have refused : (Head.grammar.feed fresh.session stream).2 =
        .error ⟨fault, fresh.session.consumed + offset⟩ ↔ _ :=
      Head.grammar_prompt.feed_eq_error_iff_take rfl trivial
    rw [show fresh.session.consumed + offset = offset from Nat.zero_add offset] at refused
    simp only [← Head.Reader.feed_snd] at refused
    refine Iff.trans refused ⟨?_, ?_⟩
    · rintro ⟨inside, taken, fails⟩
      exact ⟨inside, taken, fails, Head.Reader.exists_feed_append_eq_true rfl taken⟩
    · rintro ⟨inside, taken, fails, _⟩
      exact ⟨inside, taken, fails⟩
  · intro fault fresh
    have holds : Form.HasName fresh.session.memory := fun data => nomatch data
    have refused : (Form.grammar.feed fresh.session stream).2 =
        .error ⟨fault, fresh.session.consumed + offset⟩ ↔ _ :=
      Form.grammar_prompt.feed_eq_error_iff_take rfl holds
    rwa [show fresh.session.consumed + offset = offset from Nat.zero_add offset] at refused

/-- A request line may not end in front of its version. -/
example :
    ((Head.Reader.start ⟨8, none⟩).feed (Bytes.ofText "GET /p\n\n")).2 = .error ⟨.uri, 6⟩ := rfl

end Octets
