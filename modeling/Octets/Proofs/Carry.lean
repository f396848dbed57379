import Octets.Proofs.Form.Parser
import Octets.Proofs.Limit
import Octets.Proofs.Refusal
import Octets.Proofs.Request.Parser
import Octets.Proofs.Stream.Carry

/-!
# What heads and forms hold over

A reader of heads or of forms is in one of the phases inside a token exactly if it holds bytes
over to the next chunk, and these are the last bytes of the stream, from where the token was
begun. So nothing is left over from one token to the next, and nothing of a token is lost, on any
way from phase to phase and at any cut.

The data of a part begin only behind an empty line, and that is read only if the header lines
have given the part a name. So a part without a name is found at a header line, never at the end
of its data.

For the machines that read through a cursor this is a fact about their carry: between two calls
an index is open exactly inside of a token, and it is the front of the next buffer; what has been
put aside is empty outside of tokens, and inside of one it is all of the token so far.

## Main definitions

* `Carry.InStep` — what a carry holds inside of a token, and outside of one

## Main results

* `Head.grammar_gapless`, `Form.grammar_gapless` — no byte of a token is passed over
* `Form.phase_of_mayFail` — where a part without a name is refused
* `Head.Parser.carry_feedAll`, `Form.Parser.carry_feedAll` — what is in the carry of a parser
* `feedAll_inStep` — what parsers carry over, and readers hold
-/

namespace Octets

/-! ## Request heads -/

namespace Head

theorem grammar_gapless : grammar.Gapless HoldsOpen := by
  rintro ⟨phase, blanks, head, key⟩ b next ⟨inside, skips⟩
  obtain rfl : blanks = false := by simpa using skips
  simp only at inside
  cases phase <;> simp only [grammar, visit] <;> (repeat' split) <;> simp_all [Phase.isInside]

/-- Whether a head is inside of a token: spaces are skipped only in front of one. -/
def Memory.isInside (m : Memory) : Bool := m.phase.isInside && !m.blanks

theorem HoldsOpen.isInside_eq {m : Memory} {isOpen : Bool} (holds : HoldsOpen m isOpen) :
    isOpen = m.isInside := by
  obtain ⟨inside, skips⟩ := holds
  rw [Memory.isInside, inside]
  cases blanks : m.blanks with
  | false => simp
  | true => simp [skips blanks]

end Head

/-! ## Form bodies -/

namespace Form

theorem grammar_gapless : grammar.Gapless HoldsOpen := by
  rintro ⟨phase, form, key, delimiter, part⟩ b next inside
  simp only [HoldsOpen] at inside
  cases phase <;> simp only [grammar, visit, visitKey, visitContent] <;> (repeat' split) <;>
    simp_all [Phase.isInside]

section Refused

variable {m : Memory} {token : Bytes} {b : UInt8}

/-- Each use of a token has one fault of its own. -/
theorem storeBoundary_ne_error {fault : Fault} (other : fault ≠ .boundaryStart) :
    m.storeBoundary token ≠ .error fault := by
  unfold Memory.storeBoundary
  split <;> simp [other.symm]

theorem storeKey_ne_error {fault : Fault} (other : fault ≠ .key) :
    m.storeKey token ≠ .error fault := by
  unfold Memory.storeKey
  split <;> simp [other.symm]

theorem storeToken_ne_error {fault : Fault} (other : fault ≠ .value) :
    m.storeToken token ≠ .error fault := by
  unfold Memory.storeToken
  split <;> simp [other.symm]

/-- A part without a name is refused at a header line. -/
theorem phase_of_mayFail (named : HasName m) (fails : (visit m b).MayFail .contentDisposition) :
    m.phase = .header ∨ m.phase = .headerRest := by
  obtain ⟨phase, form, key, delimiter, part⟩ := m
  cases phase with
  | header => exact .inl rfl
  | headerRest => exact .inr rfl
  | content matched =>
    simp only [visit, visitContent] at fails
    split at fails
    -- Behind its data a part with a name is taken.
    · obtain ⟨token, refused⟩ := fails
      obtain ⟨next, taken⟩ := exists_storePart_eq_ok (named rfl) token
      rw [Memory.map_enter_eq_error_iff, taken] at refused
      cases refused
    · cases fails
  | _ =>
    -- Tokens of the other kinds are refused for other faults.
    simp only [visit, visitKey] at fails
    repeat' split at fails
    all_goals simp [Stream.Move.MayFail, Memory.map_enter_eq_error_iff, storeBoundary_ne_error,
      storeKey_ne_error, storeToken_ne_error] at fails

end Refused

/-- Whatever comes of some chunks, the part whose data comes has a name. -/
theorem Reader.hasName_feedAll (options : Stream.Options) (chunks : List Bytes) :
    HasName ((start options).feedAll chunks).1.session.memory := by
  have begins : HasName (start options).session.memory := fun data => nomatch data
  obtain ⟨front, _, trace⟩ :=
    Stream.Grammar.exists_reads_feedAll grammar (start options).session chunks
  have named := grammar_prompt.reads begins trace
  rw [session_feedAll]
  exact named

end Form

/-! ## The carry of a parser -/

namespace Stream

variable {σ τ ε : Type}

/-- What a carry holds inside of a token, or outside of one, when some bytes have been fed. -/
structure Carry.InStep (g : Grammar τ ε) (fresh : Session τ) (fed : Bytes) (c : Carry)
    (isInside : Bool) : Prop where
  opened_eq : c.opened = if isInside then some 0 else none
  held_eq_nil : isInside = false → c.held = []
  carries : isInside = true → g.Carries fresh fed c.held

/-- A machine whose session is in step has its carry in step. -/
theorem View.Rests.inStep_carry {v : View σ τ} {p : Parser σ} {g : Grammar τ ε}
    {fresh : Session τ} {fed : Bytes} {isInside : Bool} (rests : v.Rests p)
    (inside : p.carry.opened.isSome = isInside)
    (carries : ∀ token ∈ (v.session p).token, g.Carries fresh fed token) :
    p.carry.InStep g fresh fed isInside := by
  subst inside
  cases opened : p.carry.opened with
  | none => exact ⟨opened, fun _ => rests.held_eq_nil opened, nofun⟩
  | some start =>
    obtain rfl := rests.opened_eq_zero start opened
    refine ⟨opened, nofun, fun _ => carries _ ?_⟩
    simp [View.session, opened]

end Stream

section Parser

variable {options : Stream.Options} {chunks : List Bytes} {answer : Bool}

/-- A parser of heads whose calls have succeeded is at rest, and stands where the reader does. -/
theorem Head.Parser.session_feedAll {p : Parser}
    (fed : (start options).feedAll chunks = (p, .ok answer)) :
    view.Rests p.toParser ∧
      grammar.feedAll (Reader.start options).session chunks =
        (view.session p.toParser, .ok answer) := by
  have follows := follows_feedAll (rests_start options) chunks
  rw [fed, reader_start] at follows
  obtain ⟨same, rests, reader⟩ := follows
  have call := Reader.feedAll_session (Reader.start options) chunks
  rw [← reader, ← same] at call
  exact ⟨rests, call.symm⟩

/-- So is a parser of forms. -/
theorem Form.Parser.session_feedAll {p : Parser}
    (fed : (start options).feedAll chunks = (p, .ok answer)) :
    view.Rests p.toParser ∧
      grammar.feedAll (Reader.start options).session chunks =
        (view.session p.toParser, .ok answer) := by
  have follows := follows_feedAll (rests_start options) chunks
  rw [fed, reader_start] at follows
  obtain ⟨same, rests, session⟩ := follows
  have call := Reader.feedAll_session (Reader.start options) chunks
  exact ⟨rests, call.symm.trans (Prod.ext session same).symm⟩

/-- Between two calls a parser of heads carries over just the token that it is inside of. -/
theorem Head.Parser.carry_feedAll {p : Parser}
    (fed : (start options).feedAll chunks = (p, .ok answer)) :
    p.carry.InStep grammar (Reader.start options).session chunks.flatten p.memory.isInside := by
  obtain ⟨rests, call⟩ := session_feedAll fed
  have inStep := (grammar_orderly.inStep_feedAll grammar_gapless rfl ⟨rfl, fun _ => rfl⟩
    call).2
  exact rests.inStep_carry rests.holds.1.symm inStep.carries

/-- So does a parser of forms. -/
theorem Form.Parser.carry_feedAll {p : Parser}
    (fed : (start options).feedAll chunks = (p, .ok answer)) :
    p.carry.InStep grammar (Reader.start options).session chunks.flatten
      p.memory.state.isInside := by
  obtain ⟨rests, call⟩ := session_feedAll fed
  have inStep := (grammar_orderly.inStep_feedAll (s := (Reader.start options).session)
    grammar_gapless rfl rfl call).2
  exact rests.inStep_carry rests.holds.1.symm inStep.carries

end Parser

/-! ## Heads and bodies -/

/-- However a head or a body is cut into chunks, a parser whose calls have succeeded carries bytes
over exactly in the states inside a token, and they are the last of the stream, since the token
was begun; in the other states nothing is put aside. So it is with a reader. Whatever the calls
come to, the part whose data comes has a name: a part without one is refused at a header line. -/
theorem feedAll_inStep (options : Stream.Options) (chunks : List Bytes) :
    ((∀ p answer, (Head.Parser.start options).feedAll chunks = (p, .ok answer) →
      p.carry.InStep Head.grammar (Head.Reader.start options).session chunks.flatten
        p.memory.isInside) ∧
    ∀ p answer, (Form.Parser.start options).feedAll chunks = (p, .ok answer) →
      p.carry.InStep Form.grammar (Form.Reader.start options).session chunks.flatten
        p.memory.state.isInside) ∧
    (∀ r answer, (Head.Reader.start options).feedAll chunks = (r, .ok answer) →
      Head.grammar.InStep (Head.Reader.start options).session chunks.flatten r.session
        r.session.memory.isInside) ∧
    (∀ r answer, (Form.Reader.start options).feedAll chunks = (r, .ok answer) →
      Form.grammar.InStep (Form.Reader.start options).session chunks.flatten r.session
        r.session.memory.phase.isInside) ∧
    ∀ r answer, (Form.Reader.start options).feedAll chunks = (r, answer) →
      (r.session.memory.phase.isData → r.session.memory.part.name.isSome) ∧
      ∀ offset, answer = .error ⟨.contentDisposition, offset⟩ →
        r.session.memory.phase = .header ∨ r.session.memory.phase = .headerRest := by
  refine ⟨⟨fun p answer fed => Head.Parser.carry_feedAll fed, fun p answer fed =>
    Form.Parser.carry_feedAll fed⟩, fun r answer fed => ?_, fun r answer fed => ?_,
    fun r answer fed => ?_⟩
  · have call := Head.Reader.feedAll_session (Head.Reader.start options) chunks
    rw [fed] at call
    obtain ⟨holds, inStep⟩ := Head.grammar_orderly.inStep_feedAll
      (s := (Head.Reader.start options).session) Head.grammar_gapless rfl ⟨rfl, fun _ => rfl⟩
      call.symm
    rwa [holds.isInside_eq] at inStep
  · have call := Form.Reader.feedAll_session (Form.Reader.start options) chunks
    rw [fed] at call
    obtain ⟨holds, inStep⟩ := Form.grammar_orderly.inStep_feedAll
      (s := (Form.Reader.start options).session) Form.grammar_gapless rfl rfl call.symm
    rwa [← (holds : _ = _)] at inStep
  · have named := Form.Reader.hasName_feedAll options chunks
    have call := Form.Reader.feedAll_session (Form.Reader.start options) chunks
    rw [fed] at named call
    refine ⟨named, ?_⟩
    rintro offset rfl
    obtain ⟨b, taken, refused⟩ | ⟨limit, same⟩ :=
      Stream.Grammar.read_eq_error_of_feedAll call.symm
    · obtain fails | ⟨limit, same⟩ := Stream.Grammar.mayFail_of_read refused
      · exact Form.phase_of_mayFail named fails
      · cases same
    · cases same

/-- A target and the data of a part that are cut in the middle, and a part without a name. -/
theorem feedAll_inStep_cutTokens :
    let options : Stream.Options := ⟨8, some 40⟩
    let head := (Head.Reader.start options).feedAll [Bytes.ofText "GE", Bytes.ofText "T /pa"]
    let opening := Bytes.ofText "--xY\r\nContent-Disposition: form-data; name=a\r\n\r\nab"
    let form := (Form.Reader.start options).feedAll [opening, Bytes.ofText "\r\n-"]
    let nameless := (Form.Reader.start options).feedAll [Bytes.ofText "--xY\r\n\r"]
    let target := (Head.Parser.start options).feedAll [Bytes.ofText "GE", Bytes.ofText "T /pa"]
    let data := (Form.Parser.start options).feedAll [opening, Bytes.ofText "\r\n-"]
    ((target.2 = .ok false ∧ target.1.memory.isInside = true ∧
        target.1.carry.held = Bytes.ofText "/pa" ∧ target.1.carry.opened = some 0) ∧
      data.2 = .ok false ∧ data.1.memory.state.isInside = true ∧
        data.1.carry.held = Bytes.ofText "ab\r\n-" ∧ data.1.carry.opened = some 0) ∧
    (head.2 = .ok false ∧ head.1.session.token = some (Bytes.ofText "/pa") ∧
        Head.grammar.Carries (Head.Reader.start options).session (Bytes.ofText "GET /pa")
          (Bytes.ofText "/pa")) ∧
      (form.2 = .ok false ∧ form.1.session.token = some (Bytes.ofText "ab\r\n-") ∧
        form.1.session.memory.phase.isInside = true) ∧
      nameless.2 = .error ⟨.contentDisposition, 6⟩ ∧
        (nameless.1.session.memory.phase = .header ∨
          nameless.1.session.memory.phase = .headerRest) := by
  intro options head opening form nameless target data
  have read : head.2 = .ok false := rfl
  have cut : head.1.session.token = some (Bytes.ofText "/pa") := rfl
  have read' : form.2 = .ok false := by
    have answered : form.2.toOption = some false := by decide +kernel
    cases answer : form.2 <;> simp_all [Except.toOption]
  have cut' : form.1.session.token = some (Bytes.ofText "ab\r\n-") := by decide +kernel
  have refused : nameless.2 = .error ⟨.contentDisposition, 6⟩ := rfl
  -- A parser stands where the reader does, so its carry has the same token.
  have answered : target.2 = .ok false :=
    (Head.Parser.follows_feedAll (Head.Parser.rests_start options) _).1.trans read
  have answered' : data.2 = .ok false :=
    (Form.Parser.follows_feedAll (Form.Parser.rests_start options) _).1.trans read'
  have ofTarget := (feedAll_inStep options _).1.1 target.1 false (Prod.ext rfl answered)
  have ofData := (feedAll_inStep options _).1.2 data.1 false (Prod.ext rfl answered')
  have stands := (Head.Reader.feedAll_session _ _).trans
    (Head.Parser.session_feedAll (p := target.1) (Prod.ext rfl answered)).2
  have stands' := (Form.Reader.feedAll_session _ _).trans
    (Form.Parser.session_feedAll (p := data.1) (Prod.ext rfl answered')).2
  obtain ⟨_, _, held⟩ := Option.map_eq_some_iff.mp
    ((congrArg (·.1.token) stands).symm.trans cut)
  obtain ⟨_, _, held'⟩ := Option.map_eq_some_iff.mp
    ((congrArg (·.1.token) stands').symm.trans cut')
  have inside : target.1.memory.isInside = true :=
    Bool.of_not_eq_false fun outside =>
      absurd (held.symm.trans (ofTarget.held_eq_nil outside)) (by decide)
  have inside' : data.1.memory.state.isInside = true :=
    Bool.of_not_eq_false fun outside =>
      absurd (held'.symm.trans (ofData.held_eq_nil outside)) (by decide)
  have ofHead := (feedAll_inStep options _).2.1 head.1 false (Prod.ext rfl read)
  have ofForm := (feedAll_inStep options _).2.2.1 form.1 false (Prod.ext rfl read')
  have ofNameless := (feedAll_inStep options _).2.2.2 nameless.1 _ (Prod.ext rfl refused)
  refine ⟨⟨⟨answered, inside, held, ?_⟩, answered', inside', held', ?_⟩,
    ⟨read, cut, ofHead.carries _ cut⟩, ⟨read', cut', ?_⟩, refused, ofNameless.2 6 rfl⟩
  · rw [ofTarget.opened_eq, inside, if_pos rfl]
  · rw [ofData.opened_eq, inside', if_pos rfl]
  · rw [← ofForm.isSome_token, cut']
    rfl

end Octets
