import Octets.Form.Parser
import Octets.Proofs.Form.Chunking
import Octets.Proofs.Form.Delimiter
import Octets.Proofs.Stream.Simulation

/-!
# The parser of form bodies reads as the grammar does

The machine that reads form bodies through a cursor agrees, step by step, with the grammar
that reads them byte by byte. Its carry, its counter of matched bytes, the part and what is
lined up behind a line feed stand in a fixed relation to the phase and the open token, and
every step keeps it, wherever a chunk ends: inside of a key, of an escape, of the boundary,
of a header line, or of the delimiter.

## Main definitions

* `Stage.IsSound` — how delimiter, matched bytes and lined up state belong to the state
* `view` — the machine as the grammar sees it

## Main results

* `simulates` — the steps of the machine agree with the grammar
* `Parser.follows_feedAll` — chunks come to what they come to byte by byte
* `Parser.conclude_chunks` — finished, chunks come to what the whole stream comes to
-/

namespace Octets.Form

open Octets.Stream (Place Step View)

/-- The states inside a token. -/
def State.isInside : State → Bool
  | .dash | .boundary | .keyRest | .valueRest | .headerRest | .content => true
  | _ => false

namespace Stage

/-- The delimiter begins with a line end. -/
def HasDelimiter (s : Stage) : Prop := ∃ rest, s.delimiter = Byte.cr :: Byte.lf :: rest

/-- Behind its boundary a multipart body has a delimiter. Behind a line feed header lines or
data come, and inside of the data less than all of the delimiter is matched. -/
def IsSound (s : Stage) : Prop :=
  match s.state with
  | .lineFeed => s.HasDelimiter ∧ (s.linedUp = .header ∨ s.linedUp = .contentStart)
  | .content => s.HasDelimiter ∧ s.matched < s.delimiter.length
  | .header | .headerRest | .contentStart | .afterBoundary | .lastDash => s.HasDelimiter
  | _ => True

theorem isSound_content {s : Stage} (state : s.state = .content) :
    s.IsSound ↔ s.HasDelimiter ∧ s.matched < s.delimiter.length := by
  rw [IsSound, state]

/-- What is kept of a token that could be stored. -/
theorem of_store_eq_ok {s left : Stage} {put : Memory → Except Fault Memory} {next : Stage → Stage}
    (stored : (s.store put).map next = .ok left) :
    ∃ m, put s.memory = .ok m ∧ left = next (s.keep m) := by
  rw [store] at stored
  cases used : put s.memory with
  | error fault =>
    rw [used] at stored
    cases stored
  | ok m =>
    rw [used] at stored
    cases stored
    exact ⟨m, rfl, rfl⟩

end Stage

/-- The machine as the grammar sees it. -/
def view : View Stage Memory where
  memory := Stage.memory
  Holds s isOpen := s.state.isInside = isOpen ∧ s.IsSound

section Step

variable {p : Place Stage} {b : UInt8} {rest : Bytes}

theorem memory_eq {state : State} (at_state : p.memory.state = state) {phase : Phase}
    (same : { p.memory with state := state }.phase = phase) :
    view.memory p.memory =
      ⟨phase, p.memory.form, p.memory.key, p.memory.delimiter, p.memory.part⟩ := by
  subst at_state same
  rfl

/-- A token that ends comes to what it comes to in the grammar. -/
theorem agrees_closeWith (stands : view.Stands p)
    (pending : grammar.isDone (view.memory p.memory) = false) (unread : p.cursor.rest = b :: rest)
    {put : Memory → Bytes → Except Fault Memory} {next : Stage → Stage} {phase : Phase}
    (enters : ∀ s, (next s).memory = s.memory.enter phase)
    (behind : grammar.move (view.memory p.memory) b =
      .behind fun token => (put (view.memory p.memory) token).map (·.enter phase))
    (holds : ∀ token m, put (view.memory p.memory) token = .ok m →
      view.Holds (next (p.memory.keep m)) false) :
    view.Agrees grammar p (closeWith p put next) := by
  refine View.agrees_closeBehind stands pending unread (fun token => ?_)
    (fun token memory used => ?_) behind
  · have same : p.memory.memory = view.memory p.memory := rfl
    simp only [Stage.store, same]
    cases put (view.memory p.memory) token with
    | error fault => rfl
    | ok m => exact congrArg Except.ok (enters (p.memory.keep m)).symm
  · obtain ⟨m, stored, rfl⟩ := Stage.of_store_eq_ok used
    exact holds token m stored

theorem memory_matched {s : Stage} (state : s.state = .content) (matched : Nat) :
    ({ s with matched } : Stage).memory = s.memory.enter (.content matched) := by
  simp [Stage.memory, Stage.phase, state, Memory.enter]

section Content

variable (stands : view.Stands p) (state : p.memory.state = .content)
include state

theorem pending_of_content : grammar.isDone (view.memory p.memory) = false := by
  simp [memory_eq state rfl, grammar, Stage.phase]

theorem move_content (b : UInt8) :
    grammar.move (view.memory p.memory) b =
      visitContent (view.memory p.memory) p.memory.matched b := by
  rw [memory_eq state rfl]
  rfl

include stands

theorem sound_of_content :
    p.memory.HasDelimiter ∧ p.memory.matched < p.memory.delimiter.length :=
  (Stage.isSound_content state).mp stands.holds.2

/-- A byte of the data after which less than all of the delimiter is matched. -/
theorem agrees_matched (unread : p.cursor.rest = b :: rest) {matched : Nat}
    (advances : advanceMatch p.memory.delimiter p.memory.matched b = matched)
    (bound : matched < p.memory.delimiter.length) :
    view.Agrees grammar p (.goes { p.next with memory := { p.memory with matched } }) := by
  have sound : ({ p.memory with matched } : Stage).IsSound :=
    (Stage.isSound_content (s := { p.memory with matched }) state).mpr
      ⟨(sound_of_content stands state).1, bound⟩
  refine View.agrees_inside stands (pending_of_content state) unread ⟨stands.holds.1, sound⟩
    ((move_content state b).trans ?_)
  have delimiter : (view.memory p.memory).delimiter = p.memory.delimiter := rfl
  simp only [visitContent, delimiter, advances]
  rw [if_neg (Nat.ne_of_lt bound)]
  simp only [view, Stage.memory, Stage.phase, state]
  rfl

/-- The byte with which the delimiter is matched ends the part. -/
theorem agrees_storePart (unread : p.cursor.rest = b :: rest)
    (goesOn : p.memory.delimiter[p.memory.matched]? = some b)
    (complete : p.memory.matched + 1 = p.memory.delimiter.length) :
    view.Agrees grammar p
      (storePart { p.next with memory := { p.memory with matched := p.memory.matched + 1 } }) := by
  have whole : advanceMatch p.memory.delimiter p.memory.matched b = p.memory.delimiter.length := by
    rw [← complete]
    exact if_pos goesOn
  have last : grammar.move (view.memory p.memory) b = .last fun token =>
      (p.memory.memory.storePart token).map (·.enter .afterBoundary) :=
    (move_content state b).trans (if_pos whole)
  have matched := memory_matched state (p.memory.matched + 1)
  have pending : grammar.isDone ({ p.memory with matched := p.memory.matched + 1 } : Stage).memory =
      false := by
    rw [matched]
    rfl
  refine View.agrees_closeLast stands (pending_of_content state) unread (fun token => ?_)
    (fun token stored used => ?_) last pending
  · simp only [Stage.store, matched, storePart_enter]
    cases p.memory.memory.storePart token <;> rfl
  · obtain ⟨m, kept, rfl⟩ := Stage.of_store_eq_ok used
    have delimiter : m.delimiter = p.memory.delimiter := delimiter_of_storePart kept
    obtain ⟨rest', begins⟩ := (sound_of_content stands state).1
    exact ⟨rfl, rest', delimiter.trans begins⟩

end Content

/-- The data of a part are scanned as the grammar scans them. Where nothing is matched, all
bytes up to a carriage return leave it so; any other byte goes on with the delimiter, begins
it anew, or is outside of it. -/
theorem agrees_scanContent (stands : view.Stands p) (state : p.memory.state = .content) :
    view.Agrees grammar p (scanContent p) := by
  fun_induction scanContent p with
  | case1 p => exact ⟨stands, rfl⟩
  | case2 p b peeked outside ih =>
    obtain ⟨⟨rest', delimiter⟩, incomplete⟩ := sound_of_content stands state
    have stays (c : UInt8) (other : (!(c == Byte.cr)) = true) :
        grammar.Stays (view.sessionAt p) c := by
      have noReturn : c ≠ Byte.cr := by simpa using other
      have unmatched : advanceMatch p.memory.delimiter p.memory.matched c = p.memory.matched := by
        rw [outside.1]
        simp [advanceMatch, delimiter, noReturn, noReturn.symm]
      have goesOn : advanceMatch p.memory.delimiter p.memory.matched c ≠
          p.memory.delimiter.length := by
        rw [unmatched]
        exact Nat.ne_of_lt incomplete
      refine .inl ((move_content state c).trans ((if_neg goesOn).trans ?_))
      exact congrArg _ ((congrArg _ (congrArg _ unmatched)).trans (memory_matched state _).symm)
    obtain ⟨stands', same⟩ := View.ends_skip (pending_of_content state) stands stays
    exact (ih stands' state).of_ends same
  | case3 p b peeked _ goesOn next complete =>
    obtain ⟨rest, unread⟩ := List.head?_eq_some_iff.mp peeked
    exact agrees_storePart stands state unread goesOn complete
  | case4 p b peeked _ goesOn next incomplete ih =>
    obtain ⟨rest, unread⟩ := List.head?_eq_some_iff.mp peeked
    have inside := (sound_of_content stands state).2
    obtain ⟨stands', same⟩ := agrees_matched stands state unread
      (by simp [advanceMatch, goesOn]) (Nat.lt_of_le_of_ne inside incomplete)
    exact (ih stands' state).of_ends same
  | case5 p b peeked _ misses matched ih =>
    obtain ⟨rest, unread⟩ := List.head?_eq_some_iff.mp peeked
    obtain ⟨⟨rest', delimiter⟩, -⟩ := sound_of_content stands state
    have bound : (if b = Byte.cr then 1 else 0) < p.memory.delimiter.length := by
      rw [delimiter]
      split <;> simp
    obtain ⟨stands', same⟩ := agrees_matched stands state unread
      (by simp [advanceMatch, misses]) bound
    exact (ih stands' state).of_ends same

theorem closed_of_not_isInside (stands : view.Stands p)
    (outside : p.memory.state.isInside = false) : p.carry.opened = none := by
  have opened := stands.holds.1
  rw [outside] at opened
  simpa using opened.symm

theorem visitKey_enter (m : Memory) (phase : Phase) (b : UInt8) :
    visitKey (m.enter phase) b = visitKey m b := by
  have keeps (token : Bytes) : ((m.enter phase).storeKey token).map (·.enter .value) =
      (m.storeKey token).map (·.enter .value) := by
    unfold Memory.storeKey
    cases decode token <;> rfl
  simp only [visitKey, keeps]
  rfl

/-- A byte other than a dash, behind a first one, is read as one of a key. -/
theorem agrees_dash (stands : view.Stands p) (state : p.memory.state = .dash)
    (unread : p.cursor.rest = b :: rest) (other : b ≠ Byte.minus) :
    view.Agrees grammar p (.goes { p with memory := p.memory.enter .keyRest }) := by
  have same : view.memory p.memory = p.memory.memory.enter .dash := memory_eq state rfl
  have inside : p.carry.opened.isSome = true := by
    have opened := stands.holds.1
    rwa [state, eq_comm] at opened
  have pending : grammar.isDone (view.memory p.memory) = false := by
    rw [same]
    rfl
  have moves : grammar.move (view.memory p.memory) b =
      grammar.move (view.memory (p.memory.enter .keyRest)) b := by
    rw [same]
    refine (if_neg other).trans ?_
    exact (visitKey_enter _ .dash b).trans (visitKey_enter p.memory.memory .keyRest b).symm
  exact View.agrees_remember stands pending unread ⟨inside.symm, trivial⟩ rfl moves

/-- The data of a part begin in front of their first byte, which the grammar takes as the
first of a token, and the machine as one more of an empty one. -/
theorem agrees_contentStart (stands : view.Stands p) (state : p.memory.state = .contentStart)
    (unread : p.cursor.rest = b :: rest) :
    view.Agrees grammar p (.goes { p with
      memory := { p.memory.enter .content with matched := 0 }
      carry := p.carry.begin p.cursor.pos }) := by
  have same : view.memory p.memory = p.memory.memory.enter .contentStart := memory_eq state rfl
  obtain ⟨rest', delimiter⟩ : p.memory.HasDelimiter := by
    have sound := stands.holds.2
    rwa [Stage.IsSound, state] at sound
  have closed : p.carry.opened = none := by
    have opened := stands.holds.1
    rw [state] at opened
    simpa [State.isInside] using opened.symm
  have pending : grammar.isDone (view.memory p.memory) = false := by
    rw [same]
    rfl
  have incomplete : advanceMatch p.memory.delimiter 0 b ≠ p.memory.delimiter.length := by
    rw [delimiter, advanceMatch]
    repeat' split
    all_goals simp
  exact View.agrees_open stands pending unread closed
    ⟨rfl, ⟨rest', delimiter⟩, by simp [Stage.enter, delimiter]⟩ rfl
    (same ▸ rfl) (if_neg incomplete)

/-- A step agrees with the grammar. -/
theorem agrees_step (stands : view.Stands p) (unread : p.cursor.rest ≠ [])
    (pending : grammar.isDone (view.memory p.memory) = false) :
    view.Agrees grammar p (step p) := by
  have sound := stands.holds.2
  have closed := closed_of_not_isInside stands
  obtain ⟨b, rest, unread⟩ := List.exists_cons_of_ne_nil unread
  have peek : p.cursor.peek = some b := by simp [Cursor.peek, unread]
  rw [step]
  obtain ⟨⟨⟨state, linedUp, matched, form, key, delimiter, part⟩, carry, consumed⟩, cursor⟩ := p
  cases state with
  | start =>
    simp only [stepIn, Step.begin?_eq unread]
    cases minus : b == Byte.minus with
    | true =>
      exact View.agrees_first stands pending unread (closed rfl) ⟨rfl, trivial⟩
        (if_pos (beq_iff_eq.mp minus))
    | false =>
      exact View.agrees_begin stands pending unread (closed rfl) ⟨rfl, trivial⟩
        (if_neg (beq_eq_false_iff_ne.mp minus))
  | dash =>
    simp only [stepIn, Cursor.read?_byte unread]
    cases minus : b == Byte.minus with
    | true =>
      exact View.agrees_inside stands pending unread ⟨stands.holds.1, trivial⟩
        (if_pos (beq_iff_eq.mp minus))
    | false => exact agrees_dash stands rfl unread (beq_eq_false_iff_ne.mp minus)
  | boundary =>
    simp only [stepIn]
    refine View.agrees_through stands pending (fun _ => rfl) fun b rest left stands' moves => ?_
    refine View.agrees_ite moves (fun moves => ?_) fun moves =>
      View.agrees_fails left pending moves rfl rfl
    refine agrees_closeWith stands' pending left (fun _ => rfl) moves fun token m stored => ?_
    exact ⟨rfl, ⟨token, delimiter_of_storeBoundary stored⟩, .inl rfl⟩
  | keyRest =>
    simp only [stepIn]
    refine View.agrees_through stands pending (fun _ => rfl) fun b rest left stands' moves => ?_
    refine View.agrees_ite moves (fun moves => ?_) fun moves =>
      View.agrees_fails left pending moves rfl rfl
    exact agrees_closeWith stands' pending left (fun _ => rfl) moves fun _ _ _ => ⟨rfl, trivial⟩
  | nextKey =>
    exact View.agrees_begin stands pending unread (closed rfl) ⟨rfl, trivial⟩ rfl
  | value =>
    simp only [stepIn, peek, Option.some.injEq, Option.any_some]
    refine View.agrees_ite rfl (fun moves => ?_) fun moves =>
      View.agrees_ite moves (fun moves => ?_) fun moves => ?_
    · exact View.agrees_outside stands pending unread (closed rfl) ⟨rfl, trivial⟩ moves
    · exact View.agrees_outside stands pending unread (closed rfl) ⟨rfl, trivial⟩ moves
    · exact View.agrees_begin stands pending unread (closed rfl) ⟨rfl, trivial⟩ moves
  | valueRest =>
    simp only [stepIn]
    refine View.agrees_through stands pending (fun _ => rfl) fun b rest left stands' moves => ?_
    refine View.agrees_ite moves (fun moves => ?_) fun moves =>
      View.agrees_ite moves (fun moves => ?_) fun moves => ?_
    · exact agrees_closeWith stands' pending left (fun _ => rfl) moves fun _ _ _ => ⟨rfl, trivial⟩
    · exact agrees_closeWith stands' pending left (fun _ => rfl) moves fun _ _ _ => ⟨rfl, trivial⟩
    · exact View.agrees_fails left pending moves rfl rfl
  | lineFeed =>
    -- The state that is lined up tells which of two phases of the grammar this is.
    obtain rfl | rfl : linedUp = .header ∨ linedUp = .contentStart := sound.2
    all_goals exact View.agrees_expect stands pending unread (closed rfl) ⟨rfl, sound.1⟩ rfl
  | header =>
    simp only [stepIn, peek, Option.some.injEq]
    refine View.agrees_ite rfl (fun moves => ?_) fun moves => ?_
    · refine View.agrees_ite moves (fun moves => ?_) fun moves => ?_
      · exact View.agrees_fails unread pending moves rfl rfl
      · exact View.agrees_outside stands pending unread (closed rfl) ⟨rfl, sound, .inr rfl⟩ moves
    · exact View.agrees_begin stands pending unread (closed rfl) ⟨rfl, sound⟩ moves
  | headerRest =>
    simp only [stepIn]
    refine View.agrees_through stands pending (fun _ => rfl) fun b rest left stands' moves => ?_
    refine View.agrees_ite moves (fun moves => ?_) fun moves =>
      View.agrees_fails left pending moves rfl rfl
    refine agrees_closeWith stands' pending left (fun _ => rfl) moves fun token m stored => ?_
    have same : m.delimiter = delimiter := delimiter_of_storeHeader stored
    obtain ⟨rest', begins⟩ := sound
    exact ⟨rfl, ⟨rest', same.trans begins⟩, .inl rfl⟩
  | contentStart => exact agrees_contentStart stands rfl unread
  | content => exact agrees_scanContent stands rfl
  | afterBoundary =>
    simp only [stepIn, Cursor.read?_byte unread]
    cases return' : b == Byte.cr with
    | true =>
      exact View.agrees_outside stands pending unread (closed rfl) ⟨rfl, sound, .inl rfl⟩
        (if_pos (beq_iff_eq.mp return'))
    | false =>
      exact View.agrees_expect stands pending unread (closed rfl) ⟨rfl, sound⟩
        (if_neg (beq_eq_false_iff_ne.mp return'))
  | lastDash =>
    exact View.agrees_expect stands pending unread (closed rfl) ⟨rfl, trivial⟩ rfl
  | done => cases pending

end Step

/-- The machine reads as the grammar does. -/
theorem simulates : view.Simulates machine grammar where
  isDone_memory := by
    rintro s done
    have state : s.state = .done := beq_iff_eq.mp done
    simp [view, Stage.memory, Stage.phase, state, grammar]
  isDone := by
    rintro s isOpen ⟨rfl, -⟩ done
    have phase : s.phase = .done := beq_iff_eq.mp done
    have state : s.state = .done := by
      unfold Stage.phase at phase
      repeat' split at phase
      all_goals first | assumption | cases phase
    exact ⟨by simp [machine, Stage.isDone, state], by simp [state, State.isInside]⟩
  tooLong_eq := rfl
  step stands unread pending := agrees_step stands unread pending

namespace Parser

variable {p : Parser}

/-- The reader that stands where the parser does. -/
def reader (p : Parser) : Reader := ⟨view.session p.toParser⟩

/-- A call of a parser comes to what a call of a reader comes to. -/
def Follows (call : Parser × Except Failure Bool) (call' : Reader × Except Failure Bool) :
    Prop :=
  view.Answers grammar (call.1.toParser, call.2) (call'.1.session, call'.2)

/-- Between two calls of a fresh parser nothing is carried over. -/
theorem rests_start (options : Stream.Options) : view.Rests (start options).toParser :=
  ⟨⟨rfl, trivial⟩, fun _ => rfl, by simp [start, Stream.Carry.start]⟩

theorem reader_start (options : Stream.Options) : (start options).reader = .start options := rfl

/-- A call of the parser, in a window of a buffer. -/
theorem follows_feedWindow (rests : view.Rests p.toParser) (buffer : Bytes) (start stop : Nat) :
    Follows (p.feedWindow buffer start stop) (p.reader.feedWindow buffer start stop) :=
  simulates.feedWindow rests buffer start stop

theorem follows_feed (rests : view.Rests p.toParser) (chunk : Bytes) :
    Follows (p.feed chunk) (p.reader.feed chunk) :=
  follows_feedWindow rests chunk 0 chunk.length

/-- Chunks fed to the parser come to what they come to byte by byte. -/
theorem follows_feedAll (rests : view.Rests p.toParser) (chunks : List Bytes) :
    Follows (p.feedAll chunks) (p.reader.feedAll chunks) := by
  induction chunks generalizing p with
  | nil =>
    have same : p.reader.isDone = p.isDone := simulates.isDone_eq rests.holds
    rw [feedAll, Reader.feedAll, same]
    exact ⟨rfl, rests, rfl⟩
  | cons chunk chunks ih =>
    have call := follows_feed rests chunk
    rw [feedAll, Reader.feedAll]
    generalize p.feed chunk = run at call ⊢
    generalize p.reader.feed chunk = run' at call ⊢
    obtain ⟨next, answer⟩ := run
    obtain ⟨⟨session⟩, answer'⟩ := run'
    obtain ⟨rfl, left⟩ := call
    cases answer with
    | error failure => exact ⟨rfl, left⟩
    | ok answer =>
      obtain ⟨rests', rfl⟩ := left
      exact ih rests'

/-- Between two calls the carry gives out what has been put aside. -/
theorem collect_eq (rests : view.Rests p.toParser) :
    p.carry.collect [] 0 =
      match p.reader.session.exceeded with
      | some limit => .error limit
      | none => .ok (p.reader.session.openBytes, { p.carry with held := [], opened := none }) := by
  obtain ⟨stands, session⟩ := View.stands_within rests [] 0 0
  have same : view.sessionAt ⟨p.toParser, Cursor.within [] 0 0⟩ = p.reader.session := by
    simp [session, Stream.Session.extend, reader]
  rw [← same]
  exact View.collect_sessionAt stands

theorem finish_of_valueRest (rests : view.Rests p.toParser) (state : p.memory.state = .valueRest) :
    (p.finish.1.reader, p.finish.2) = p.reader.finish := by
  have phase : p.reader.session.memory.phase = .valueRest := by
    simp [reader, View.session, view, Stage.memory, Stage.phase, state]
  have memory : p.memory.memory = p.reader.session.memory := rfl
  simp only [finish, Reader.finish, state, phase, collect_eq rests, Stream.Grammar.collect]
  cases p.reader.session.exceeded with
  | some limit => rfl
  | none =>
    simp only [Stage.store, memory]
    cases p.reader.session.memory.storeToken p.reader.session.openBytes <;> rfl

/-- The end of a body comes to what it comes to byte by byte. -/
theorem finish_reader (rests : view.Rests p.toParser) :
    (p.finish.1.reader, p.finish.2) = p.reader.finish := by
  have phase : p.reader.session.memory.phase = p.memory.phase := rfl
  cases state : p.memory.state with
  | valueRest => exact finish_of_valueRest rests state
  | lineFeed =>
    simp only [Stage.phase, state] at phase
    split at phase <;> simp only [finish, Reader.finish, state, phase] <;> rfl
  | _ =>
    simp only [Stage.phase, state] at phase
    simp only [finish, Reader.finish, state, phase]
    rfl

/-- The end of a body that has been fed. -/
def conclude (run : Parser × Except Failure Bool) : Ending :=
  match run.2 with
  | .error failure => .refused failure
  | .ok _ =>
    match run.1.finish with
    | (_, .error failure) => .unfinished failure
    | (after, .ok form) => .finished run.1.isDone after.consumed after.boundary form

/-- What follows comes to the same. -/
theorem Follows.conclude_eq {call : Parser × Except Failure Bool}
    {call' : Reader × Except Failure Bool} (follows : Follows call call') :
    conclude call = Reader.conclude call' := by
  obtain ⟨p, answer⟩ := call
  obtain ⟨⟨session⟩, answer'⟩ := call'
  obtain ⟨rfl, left⟩ := follows
  cases answer with
  | error failure => rfl
  | ok answer =>
    obtain ⟨rests, rfl⟩ := left
    have isDone : p.reader.isDone = p.isDone := simulates.isDone_eq rests.holds
    have same : (⟨view.session p.toParser⟩ : Reader) = p.reader := rfl
    simp only [conclude, Reader.conclude, same, ← finish_reader rests, isDone]
    rcases p.finish with ⟨after, failure | form⟩ <;> rfl

/-- Chunks fed one after the other and then finished come to what the whole stream comes to,
wherever the cuts fall: inside of a token, of an escape, or of the delimiter. -/
theorem conclude_chunks (capacity : Nat) (chunks : List Bytes) :
    let fresh := start ⟨capacity, none⟩
    conclude (fresh.feedAll chunks) = conclude (fresh.feed chunks.flatten) := by
  intro fresh
  have rests : view.Rests fresh.toParser := rests_start _
  rw [(follows_feedAll rests chunks).conclude_eq, (follows_feed rests chunks.flatten).conclude_eq]
  exact Reader.conclude_feedAll capacity chunks

end Parser

end Octets.Form
