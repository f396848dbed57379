import Octets.Proofs.Form.Chunking
import Octets.Proofs.Request.Chunking
import Octets.Proofs.Stream.Limit

/-!
# Heads and forms under a limit on tokens

Both readers begin a token only behind the last one, and a stream of theirs ends only where no
token is open: their grammars are orderly. So a limit on tokens makes one difference only. A
reader with a limit comes to what the reader without one comes to, or it refuses a token that is
too long, and which of the two it is does not depend on the cuts.

## Main results

* `Head.grammar_orderly`, `Form.grammar_orderly` — the phase says whether a token is open
* `report_limited`, `conclude_limited` — a reader under a limit, against the one without
* `feedAll_limited_isOk_iff`, `conclude_limited_isFinished_iff` — what is accepted under a limit
* `feedAll_limited` — the same, of both readers at once
-/

namespace Octets

/-! ## Request heads -/

namespace Head

open Stream.Grammar (settle)

/-- Whether a token is open. Spaces are skipped only in front of one. -/
def HoldsOpen (m : Memory) (isOpen : Bool) : Prop :=
  m.phase.isInside = isOpen ∧ (m.blanks = true → isOpen = false)

theorem grammar_orderly : grammar.Orderly HoldsOpen where
  pending := by
    rintro ⟨phase, blanks, head, key⟩ ⟨inside, -⟩
    cases phase <;> first | rfl | cases inside
  keeps := by
    rintro ⟨phase, blanks, head, key⟩ isOpen b ⟨inside, skips⟩
    simp only at inside skips
    subst inside
    simp only [grammar]
    split
    · exact ⟨rfl, skips⟩
    · cases phase <;> simp only [visit] <;> (repeat' split) <;>
        simp [Stream.Grammar.Keeps, HoldsOpen, Phase.isInside, Memory.enter,
          Memory.enterBehindSpaces, Memory.storeField]

namespace Reader

theorem session_feedAll (r : Reader) (chunks : List Bytes) :
    (r.feedAll chunks).1.session = (grammar.feedAll r.session chunks).1 :=
  congrArg Prod.fst (feedAll_session r chunks)

theorem answer_feedAll (r : Reader) (chunks : List Bytes) :
    (r.feedAll chunks).2 = (grammar.feedAll r.session chunks).2 :=
  congrArg Prod.snd (feedAll_session r chunks)

variable (capacity limit : Nat) (chunks : List Bytes)

/-- A reader with a limit shows what the reader without one shows, or it fails in a token that
is too long. -/
theorem report_limited :
    let bounded := report ((start ⟨capacity, some limit⟩).feedAll chunks)
    bounded = report ((start ⟨capacity, none⟩).feedAll chunks) ∨
      ∃ offset, bounded = .error ⟨.tokenTooLong limit, offset⟩ := by
  intro bounded
  let free : Reader := start ⟨capacity, none⟩
  have session : (start ⟨capacity, some limit⟩).session = free.session.limited limit := rfl
  simp only [bounded, report_eq_map_settle, feedAll_session, session]
  obtain same | ⟨offset, refused⟩ :=
    Stream.Grammar.settle_feedAll_limited (g := grammar) (s := free.session) rfl limit chunks
  · refine .inl ?_
    rw [same]
    cases settle (grammar.feedAll free.session chunks) <;> rfl
  · refine .inr ⟨offset, ?_⟩
    rw [refused]
    rfl

/-- A head is accepted under a limit iff it is accepted without one and no token of it is too
long. -/
theorem feedAll_limited_isOk_iff :
    ((start ⟨capacity, some limit⟩).feedAll chunks).2.isOk ↔
      ((start ⟨capacity, none⟩).feed chunks.flatten).2.isOk ∧
        grammar.Fits limit (start ⟨capacity, none⟩).session chunks.flatten := by
  rw [answer_feedAll, congrArg Prod.snd (feed_session _ _)]
  exact Stream.Grammar.isOk_feedAll_limited_iff grammar_orderly
    (s := (start ⟨capacity, none⟩).session) rfl ⟨rfl, fun _ => rfl⟩ (Nat.zero_le _)

/-- A reader that has not failed holds no more bytes over than the limit. -/
theorem openBytes_le_of_feedAll_limited
    (accepted : ((start ⟨capacity, some limit⟩).feedAll chunks).2.isOk) :
    ((start ⟨capacity, some limit⟩).feedAll chunks).1.session.openBytes.length ≤ limit := by
  rw [answer_feedAll] at accepted
  rw [session_feedAll]
  exact Stream.Grammar.openBytes_le_of_feedAll_limited grammar_orderly
    (s := (start ⟨capacity, none⟩).session) rfl ⟨rfl, fun _ => rfl⟩ (Nat.zero_le _) accepted

end Reader

end Head

/-! ## Form bodies -/

namespace Form

open Stream.Grammar (settle)

/-- Whether a token is open. -/
def HoldsOpen (m : Memory) (isOpen : Bool) : Prop := m.phase.isInside = isOpen

theorem grammar_orderly : grammar.Orderly HoldsOpen where
  pending := by
    rintro ⟨phase, form, key, delimiter, part⟩ inside
    cases phase <;> first | rfl | cases inside
  keeps := by
    -- A token that is closed is used first, and the phase behind it is entered last.
    have entered {next : Except Fault Memory} {phase : Phase} (between : phase.isInside = false)
        {last : Memory} (used : next.map (·.enter phase) = .ok last) : HoldsOpen last false := by
      obtain ⟨_, _, rfl⟩ := Memory.map_enter_eq_ok_iff.mp used
      exact between
    rintro ⟨phase, form, key, delimiter, part⟩ isOpen b inside
    simp only [HoldsOpen] at inside
    subst inside
    cases phase <;> simp only [grammar, visit, visitKey, visitContent] <;> (repeat' split) <;>
      first
      | exact fun _ _ used => entered rfl used
      | simp [Stream.Grammar.Keeps, HoldsOpen, Phase.isInside, Memory.enter, Memory.storeValue]

namespace Ending

/-- Whether the body was read to its end. -/
def isFinished : Ending → Bool
  | finished .. => true
  | _ => false

end Ending

namespace Reader

theorem session_feedAll (r : Reader) (chunks : List Bytes) :
    (r.feedAll chunks).1.session = (grammar.feedAll r.session chunks).1 :=
  congrArg Prod.fst (feedAll_session r chunks)

theorem answer_feedAll (r : Reader) (chunks : List Bytes) :
    (r.feedAll chunks).2 = (grammar.feedAll r.session chunks).2 :=
  congrArg Prod.snd (feedAll_session r chunks)

/-- Where the open token fits, the end of a body is the same with a limit and without. -/
theorem conclude_limited_of_fits {s : Stream.Session Memory} {limit : Nat}
    (unlimited : s.limit = none) (fits : s.openBytes.length ≤ limit) :
    conclude (⟨s.limited limit⟩, .ok true) = conclude (⟨s⟩, .ok true) := by
  have collected : grammar.collect (s.limited limit) = grammar.collect s := by
    simp only [Stream.Grammar.collect, Stream.Session.exceeded_limited,
      Nat.not_lt.mpr fits, if_false, Stream.Session.exceeded_of_unlimited unlimited,
      Stream.Session.openBytes_limited]
  unfold conclude finish
  simp only [Stream.Session.memory_limited, collected]
  -- Only the last value of a form can be open at the end of a body and be stored there.
  cases phase : s.memory.phase with
  | valueRest =>
    simp only
    cases grammar.collect s with
    | error fault => rfl
    | ok token =>
      simp only
      cases s.memory.storeToken token <;> rfl
  | _ => rfl

variable (capacity limit : Nat) (chunks : List Bytes)

/-- A body read under a limit comes to what it comes to without one, or a token of it is refused
as too long. -/
theorem conclude_limited :
    let bounded := conclude ((start ⟨capacity, some limit⟩).feedAll chunks)
    bounded = conclude ((start ⟨capacity, none⟩).feedAll chunks) ∨
      ∃ offset, bounded = .refused ⟨.tokenTooLong limit, offset⟩ := by
  intro bounded
  let free : Reader := start ⟨capacity, none⟩
  have session : (start ⟨capacity, some limit⟩).session = free.session.limited limit := rfl
  simp only [bounded]
  rw [conclude_eq_match_settle, conclude_eq_match_settle (free.feedAll chunks), feedAll_session,
    feedAll_session, session]
  obtain same | ⟨offset, refused⟩ :=
    Stream.Grammar.settle_feedAll_limited (g := grammar) (s := free.session) rfl limit chunks
  · refine .inl ?_
    rw [same]
    cases settled : settle (grammar.feedAll free.session chunks) with
    | error failure => rfl
    | ok last =>
      rw [settled] at same
      have unlimited : last.limit = none := by
        rw [Stream.Grammar.settle_feedAll rfl] at settled
        exact Stream.Grammar.limit_of_settle_feed rfl settled
      have fits : (last.limited limit).openBytes.length ≤ limit :=
        Stream.Grammar.openBytes_le_of_settle_feedAll grammar_orderly (s := free.session)
          rfl rfl (Nat.zero_le _) same
      exact conclude_limited_of_fits unlimited fits
  · refine .inr ⟨offset, ?_⟩
    rw [refused]
    rfl

/-- The chunks of a body are accepted under a limit iff the body is accepted without one and no
token of it is too long. -/
theorem feedAll_limited_isOk_iff :
    ((start ⟨capacity, some limit⟩).feedAll chunks).2.isOk ↔
      ((start ⟨capacity, none⟩).feed chunks.flatten).2.isOk ∧
        grammar.Fits limit (start ⟨capacity, none⟩).session chunks.flatten := by
  rw [answer_feedAll, congrArg Prod.snd (feed_session _ _)]
  exact Stream.Grammar.isOk_feedAll_limited_iff grammar_orderly
    (s := (start ⟨capacity, none⟩).session) rfl rfl (Nat.zero_le _)

/-- A reader that has not failed holds no more bytes over than the limit. -/
theorem openBytes_le_of_feedAll_limited
    (accepted : ((start ⟨capacity, some limit⟩).feedAll chunks).2.isOk) :
    ((start ⟨capacity, some limit⟩).feedAll chunks).1.session.openBytes.length ≤ limit := by
  rw [answer_feedAll] at accepted
  rw [session_feedAll]
  exact Stream.Grammar.openBytes_le_of_feedAll_limited grammar_orderly
    (s := (start ⟨capacity, none⟩).session) rfl rfl (Nat.zero_le _) accepted

/-- A body that is read to its end has not been refused before. -/
theorem isOk_of_isFinished {run : Reader × Except Failure Bool}
    (finished : (conclude run).isFinished) : run.2.isOk := by
  obtain ⟨r, failure | answer⟩ := run
  · cases finished
  · rfl

/-- A body is refused where feeding has failed. -/
theorem error_of_refused {run : Reader × Except Failure Bool} {failure : Failure}
    (refused : conclude run = .refused failure) : run.2 = .error failure := by
  obtain ⟨r, failure | answer⟩ := run
  · cases refused
    rfl
  · simp only [conclude] at refused
    split at refused <;> cases refused

/-- A body is read to its end under a limit iff it is without one and no token of it is too
long. -/
theorem conclude_limited_isFinished_iff :
    (conclude ((start ⟨capacity, some limit⟩).feedAll chunks)).isFinished ↔
      (conclude ((start ⟨capacity, none⟩).feed chunks.flatten)).isFinished ∧
        grammar.Fits limit (start ⟨capacity, none⟩).session chunks.flatten := by
  have joined : conclude ((start ⟨capacity, none⟩).feedAll chunks) =
      conclude ((start ⟨capacity, none⟩).feed chunks.flatten) := by
    rw [conclude_eq_match_settle, settle_feedAll rfl, ← feed_session, ← conclude_eq_match_settle]
  have accepted := feedAll_limited_isOk_iff capacity limit chunks
  rw [← joined]
  -- Either the limit changes nothing, or the chunks are refused, and then a token is too long.
  obtain same | ⟨offset, refused⟩ := conclude_limited capacity limit chunks
  · rw [same]
    refine ⟨fun finished => ⟨finished, ?_⟩, And.left⟩
    exact (accepted.mp (isOk_of_isFinished (same ▸ finished))).2
  · rw [refused]
    refine iff_of_false (by simp [Ending.isFinished]) fun ⟨finished, fits⟩ => ?_
    have answered := accepted.mpr ⟨isOk_of_isFinished (joined ▸ finished), fits⟩
    simp [error_of_refused refused, Except.isOk, Except.toBool] at answered

end Reader

end Form

/-! ## Both readers -/

/-- A limit on tokens refuses streams with a token that is too long and changes nothing else.
However a head or a body is cut into chunks: the reader with a limit comes to what the reader
without one comes to, success or failure, or it fails in a token that is too long; whether it
succeeds is the same for all cuts of the stream; and as long as its calls succeed, it holds no
more bytes over than the limit. -/
theorem feedAll_limited (capacity limit : Nat) (chunks : List Bytes) :
    (let bounded := (Head.Reader.start ⟨capacity, some limit⟩).feedAll
      let free := (Head.Reader.start ⟨capacity, none⟩).feedAll
      (Head.Reader.report (bounded chunks) = Head.Reader.report (free chunks) ∨
        ∃ offset, Head.Reader.report (bounded chunks) = .error ⟨.tokenTooLong limit, offset⟩) ∧
      (∀ recut, recut.flatten = chunks.flatten →
        (bounded recut).2.isOk = (bounded chunks).2.isOk) ∧
      ((bounded chunks).2.isOk → (bounded chunks).1.session.openBytes.length ≤ limit)) ∧
    (let bounded := (Form.Reader.start ⟨capacity, some limit⟩).feedAll
      let free := (Form.Reader.start ⟨capacity, none⟩).feedAll
      (Form.Reader.conclude (bounded chunks) = Form.Reader.conclude (free chunks) ∨
        ∃ offset, Form.Reader.conclude (bounded chunks) =
          .refused ⟨.tokenTooLong limit, offset⟩) ∧
      (∀ recut, recut.flatten = chunks.flatten →
        (Form.Reader.conclude (bounded recut)).isFinished =
          (Form.Reader.conclude (bounded chunks)).isFinished) ∧
      ((bounded chunks).2.isOk → (bounded chunks).1.session.openBytes.length ≤ limit)) := by
  refine ⟨⟨Head.Reader.report_limited capacity limit chunks, fun recut same => ?_,
      Head.Reader.openBytes_le_of_feedAll_limited capacity limit chunks⟩,
    Form.Reader.conclude_limited capacity limit chunks, fun recut same => ?_,
    Form.Reader.openBytes_le_of_feedAll_limited capacity limit chunks⟩
  · rw [Bool.eq_iff_iff, Head.Reader.feedAll_limited_isOk_iff,
      Head.Reader.feedAll_limited_isOk_iff, same]
  · rw [Bool.eq_iff_iff, Form.Reader.conclude_limited_isFinished_iff,
      Form.Reader.conclude_limited_isFinished_iff, same]

end Octets
