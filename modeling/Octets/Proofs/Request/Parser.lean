import Octets.Proofs.Request.Chunking
import Octets.Proofs.Stream.Simulation
import Octets.Request.Parser

/-!
# The parser of request heads reads as the grammar does

The machine that reads heads through a cursor agrees, step by step, with the grammar that reads
them byte by byte. At spaces the phase of the grammar is the one lined up behind them; in a phase
a token is open exactly inside of one. A chunk that ends inside of a method, a target, a key or a
value leaves the bytes so far in the carry, which are those of the open token of the grammar.

So what chunks come to does not depend on the cuts, and the chunk that completes the head is told
by the index of the body in it.

## Main definitions

* `view` — the machine as the grammar sees it
* `Parser.reader` — the reader that stands where a parser does
* `Parser.Follows` — a call that comes to what a call of a reader comes to

## Main results

* `simulates` — the steps of the machine agree with the grammar
* `Parser.follows_feedAll` — chunks come to what they come to byte by byte
* `Parser.report_chunks` — chunks come to what the whole stream comes to
-/

namespace Octets.Head

open Octets.Stream (Place Step View)

namespace Stage

/-- The memory of the grammar: where spaces may come, its phase is the one behind them. -/
def memory (s : Stage) : Memory :=
  match s.state with
  | .spaces => ⟨s.linedUp, true, s.head, s.key⟩
  | .phase phase => ⟨phase, false, s.head, s.key⟩

/-- Whether the machine is inside of a token. -/
def isInside (s : Stage) : Bool :=
  match s.state with
  | .spaces => false
  | .phase phase => phase.isInside

end Stage

/-- The machine as the grammar sees it. A token is open inside of one, and what is lined up
behind spaces is neither inside of a token nor the end. -/
def view : View Stage Memory where
  memory := Stage.memory
  Holds s isOpen := s.isInside = isOpen ∧ s.linedUp.isInside = false ∧ (s.linedUp == .done) = false

section Step

variable {p : Place Stage} {phase : Phase} {b : UInt8}

theorem memory_eq (state : p.memory.state = .phase phase) :
    view.memory p.memory = ⟨phase, false, p.memory.head, p.memory.key⟩ := by
  simp [view, Stage.memory, state]

theorem closed_of_not_isInside (stands : view.Stands p) (state : p.memory.state = .phase phase)
    (outside : phase.isInside = false) : p.carry.opened = none := by
  have opened := stands.holds.1
  rw [Stage.isInside, state] at opened
  simpa [outside] using opened.symm

/-- A token that ends is stored as the grammar stores it. -/
theorem agrees_closeWith (stands : view.Stands p)
    (pending : grammar.isDone (view.memory p.memory) = false) {rest : Bytes}
    (unread : p.cursor.rest = b :: rest) {store : Bytes → Stage}
    (behind : grammar.move (view.memory p.memory) b =
      .behind fun token => .ok (store token).memory)
    (holds : ∀ token, view.Holds (store token) false) :
    view.Agrees grammar p (closeWith p store) := by
  refine View.agrees_closeBehind stands pending unread (fun _ => rfl) (fun token memory used => ?_)
    behind
  cases used
  exact holds token

/-- A step in a phase agrees with the grammar. -/
theorem agrees_stepIn (stands : view.Stands p) (state : p.memory.state = .phase phase)
    (unread : p.cursor.rest ≠ []) (unfinished : phase ≠ .done) :
    view.Agrees grammar p (stepIn p phase) := by
  have sound := stands.holds.2
  have closed := closed_of_not_isInside stands state
  have pending : grammar.isDone (view.memory p.memory) = false := by
    rw [memory_eq state]
    simpa [grammar] using unfinished
  obtain ⟨b, rest, unread⟩ := List.exists_cons_of_ne_nil unread
  have peek : p.cursor.peek = some b := by simp [Cursor.peek, unread]
  obtain ⟨⟨⟨_, linedUp, head, key⟩, carry, consumed⟩, cursor⟩ := p
  cases state
  cases phase with
  | method | uri | value =>
    exact View.agrees_begin stands pending unread (closed rfl) ⟨rfl, sound⟩ rfl
  | version =>
    exact View.agrees_begin stands pending unread (closed rfl) ⟨rfl, sound⟩
      (if_congr beq_iff_eq.symm rfl rfl)
  | lineFeed | lastLineFeed =>
    exact View.agrees_expect stands pending unread (closed rfl) ⟨rfl, sound⟩ rfl
  | colon => exact View.agrees_expect stands pending unread (closed rfl) ⟨rfl, rfl, rfl⟩ rfl
  | methodRest | uriRest =>
    simp only [stepIn]
    refine View.agrees_through stands pending (fun _ => rfl) fun b rest left stands' moves => ?_
    refine View.agrees_ite moves (fun moves => ?_) fun moves => ?_
    · exact agrees_closeWith stands' pending left moves fun _ => ⟨rfl, rfl, rfl⟩
    · exact View.agrees_fails left pending moves rfl rfl
  | versionRest =>
    simp only [stepIn]
    refine View.agrees_through stands pending (fun _ => rfl) fun b rest left stands' moves => ?_
    refine View.agrees_ite moves (fun moves => ?_) fun moves =>
      View.agrees_ite moves (fun moves => ?_) fun moves =>
      View.agrees_ite moves (fun moves => ?_) fun moves => ?_
    · exact agrees_closeWith stands' pending left moves fun _ => ⟨rfl, rfl, rfl⟩
    · exact agrees_closeWith stands' pending left moves fun _ => ⟨rfl, rfl, rfl⟩
    · exact agrees_closeWith stands' pending left moves fun _ => ⟨rfl, rfl, rfl⟩
    · exact View.agrees_fails left pending moves rfl rfl
  | keyRest =>
    simp only [stepIn]
    refine View.agrees_through stands pending (fun _ => rfl) fun b rest left stands' moves => ?_
    refine View.agrees_ite moves (fun moves => ?_) fun moves =>
      View.agrees_ite moves (fun moves => ?_) fun moves => ?_
    · exact agrees_closeWith stands' pending left moves fun _ => ⟨rfl, rfl, rfl⟩
    · exact agrees_closeWith stands' pending left moves fun _ => ⟨rfl, rfl, rfl⟩
    · exact View.agrees_fails left pending moves rfl rfl
  | valueRest =>
    simp only [stepIn]
    refine View.agrees_through stands pending (fun _ => rfl) fun b rest left stands' moves => ?_
    refine View.agrees_ite moves (fun moves => ?_) fun moves =>
      View.agrees_ite moves (fun moves => ?_) fun moves => ?_
    · exact agrees_closeWith stands' pending left moves fun _ => ⟨rfl, sound⟩
    · exact agrees_closeWith stands' pending left moves fun _ => ⟨rfl, sound⟩
    · exact View.agrees_fails left pending moves rfl rfl
  | lineEnd =>
    have next : cursor.next = some (b, cursor.advance 1) := by simp [Cursor.next, peek]
    simp only [stepIn, next]
    refine View.agrees_ite rfl (fun moves => ?_) fun moves =>
      View.agrees_ite moves (fun moves => ?_) fun moves => ?_
    · exact View.agrees_outside stands pending unread (closed rfl) ⟨rfl, sound⟩ moves
    · exact View.agrees_outside stands pending unread (closed rfl) ⟨rfl, sound⟩ moves
    · refine View.agrees_fails unread pending moves ?_ rfl
      -- Behind one byte, the step back leads to where the step began.
      have ascend : cursor.start ≤ cursor.pos := stands.wellFormed.1
      simp [Cursor.retreat, Cursor.advance, Nat.max_eq_left ascend]
  | key =>
    simp only [stepIn, Step.begin?_eq unread]
    cases alpha : Byte.isAlpha b with
    | true =>
      exact View.agrees_first stands pending unread (closed rfl) ⟨rfl, sound⟩ (if_pos alpha)
    | false =>
      simp only [peek, Option.some.injEq, Bool.false_eq_true, if_false]
      refine View.agrees_ite (if_neg (Bool.eq_false_iff.mp alpha)) (fun moves => ?_) fun moves =>
        View.agrees_ite moves (fun moves => ?_) fun moves => ?_
      · exact View.agrees_outside stands pending unread (closed rfl) ⟨rfl, sound⟩ moves
      · exact View.agrees_outside stands pending unread (closed rfl) ⟨rfl, sound⟩ moves
      · exact View.agrees_fails unread pending moves rfl rfl
  | done => exact absurd rfl unfinished

/-- So does a step at spaces: it goes over those that come, and to the phase behind them. -/
theorem agrees_skipSpaces (stands : view.Stands p) (state : p.memory.state = .spaces) :
    view.Agrees grammar p (skipSpaces p) := by
  have memory : view.memory p.memory =
      ⟨p.memory.linedUp, true, p.memory.head, p.memory.key⟩ := by
    simp [view, Stage.memory, state]
  have closed : p.carry.opened = none := by
    have inside := stands.holds.1
    rw [Stage.isInside, state] at inside
    simpa using inside.symm
  have pending : grammar.isDone (view.memory p.memory) = false := by
    rw [memory]
    simpa [grammar] using stands.holds.2.2
  have stays (b : UInt8) (space : (b == Byte.space) = true) :
      grammar.Stays (view.sessionAt p) b := by
    refine .inr ⟨by simp [View.sessionAt, Stream.Carry.token, closed], ?_⟩
    have session : (view.sessionAt p).memory = view.memory p.memory := rfl
    rw [session, memory, beq_iff_eq.mp space]
    rfl
  obtain ⟨stands', same⟩ := View.ends_skip pending stands stays
  simp only [skipSpaces]
  cases left : (p.skip (· == Byte.space)).cursor.rest with
  | nil => exact ⟨stands', same⟩
  | cons b rest =>
    have noSpace : b ≠ Byte.space := by simpa using Place.eq_false_of_rest_skip left
    have holds : view.Holds (p.memory.enter p.memory.linedUp) p.carry.opened.isSome := by
      rw [closed]
      exact ⟨stands.holds.2.1, stands.holds.2⟩
    have pending' : grammar.isDone (view.memory (p.memory.enter p.memory.linedUp)) = false :=
      stands.holds.2.2
    -- The machine forgets that spaces could come; none does, so the next byte is read alike.
    have moves : grammar.move (view.memory p.memory) b =
        grammar.move (view.memory (p.memory.enter p.memory.linedUp)) b := by
      rw [memory]
      simp [grammar, noSpace, view, Stage.memory, Stage.enter]
    exact (View.agrees_remember stands' pending left holds pending' moves).of_ends same

end Step

/-- The machine reads as the grammar does. -/
theorem simulates : view.Simulates machine grammar where
  isDone_memory := by
    rintro s done
    have state : s.state = .phase .done := by simpa [machine, Stage.isDone] using done
    simp [view, Stage.memory, state, grammar]
  isDone := by
    rintro s isOpen ⟨rfl, _, linedUp⟩ done
    simp only [view, Stage.memory, grammar] at done
    split at done
    · exact absurd done (Bool.eq_false_iff.mp linedUp)
    · rename_i phase state
      obtain rfl := beq_iff_eq.mp done
      refine ⟨by simp [machine, Stage.isDone, state], ?_⟩
      simp [Stage.isInside, state, Phase.isInside]
  tooLong_eq := rfl
  step := by
    intro p stands unread pending
    change view.Agrees grammar p (step p)
    unfold step
    split
    · exact agrees_skipSpaces stands ‹_›
    · rename_i phase state
      refine agrees_stepIn stands state unread ?_
      rintro rfl
      simp [memory_eq state, grammar] at pending

namespace Parser

variable {p : Parser}

/-- The reader that stands where the parser does. -/
def reader (p : Parser) : Reader := ⟨view.session p.toParser, p.bodyIndex⟩

/-- A call of a parser comes to what a call of a reader comes to. -/
def Follows (call : Parser × Except Failure Bool) (call' : Reader × Except Failure Bool) :
    Prop :=
  call.2 = call'.2 ∧
    match call.2 with
    | .ok _ => view.Rests call.1.toParser ∧ call.1.reader = call'.1
    | .error _ => call.1.isDone = false ∧ call'.1.isDone = false

theorem isDone_reader (rests : view.Rests p.toParser) : p.reader.isDone = p.isDone :=
  simulates.isDone_eq rests.holds

/-- Between two calls of a fresh parser nothing is carried over. -/
theorem rests_start (options : Stream.Options) : view.Rests (start options).toParser :=
  ⟨⟨rfl, rfl, rfl⟩, fun _ => rfl, by simp [start, Stream.Carry.start]⟩

theorem reader_start (options : Stream.Options) : (start options).reader = .start options := rfl

theorem Follows.isDone {call : Parser × Except Failure Bool}
    {call' : Reader × Except Failure Bool} (follows : Follows call call') :
    call.1.isDone = call'.1.isDone := by
  obtain ⟨p, failure | answer⟩ := call
  · exact follows.2.1.trans follows.2.2.symm
  · exact (isDone_reader follows.2.1).symm.trans (congrArg Reader.isDone follows.2.2)

/-- A complete head has been left by a call that succeeded. -/
theorem Follows.reader_eq {call : Parser × Except Failure Bool}
    {call' : Reader × Except Failure Bool} (follows : Follows call call')
    (done : call.1.isDone = true) : view.Rests call.1.toParser ∧ call.1.reader = call'.1 := by
  obtain ⟨p, failure | answer⟩ := call
  · exact absurd done (Bool.eq_false_iff.mp follows.2.1)
  · exact follows.2

/-- A call of the parser, in a window of a buffer. -/
theorem follows_feedWindow (rests : view.Rests p.toParser) (buffer : Bytes) (start stop : Nat) :
    Follows (p.feedWindow buffer start stop) (p.reader.feedWindow buffer start stop) := by
  have same := isDone_reader rests
  have answers := simulates.feedWindow rests buffer start stop
  cases done : p.isDone with
  | true =>
    rw [done] at same
    simp only [feedWindow, Reader.feedWindow, done, same, if_true]
    exact ⟨rfl, rests, rfl⟩
  | false =>
    rw [done] at same
    have session : p.reader.session = view.session p.toParser := rfl
    simp only [feedWindow, Reader.feedWindow, done, same, session, Bool.false_eq_true, if_false]
    generalize machine.feedWindow p.toParser buffer start stop = call at answers ⊢
    generalize grammar.feedWindow (view.session p.toParser) buffer start stop = call' at answers ⊢
    obtain ⟨next, answer⟩ := call
    obtain ⟨session', answer'⟩ := call'
    obtain ⟨rfl, left⟩ := answers
    cases answer with
    | error failure =>
      obtain ⟨pending, open'⟩ := left
      refine ⟨rfl, ?_, open'⟩
      exact Bool.eq_false_iff.mpr fun ended => by simp [simulates.isDone_memory ended] at pending
    | ok answer =>
      obtain ⟨rests', rfl⟩ := left
      exact ⟨rfl, rests', rfl⟩

theorem follows_feed (rests : view.Rests p.toParser) (chunk : Bytes) :
    Follows (p.feed chunk) (p.reader.feed chunk) :=
  follows_feedWindow rests chunk 0 chunk.length

/-- Chunks fed to the parser come to what they come to byte by byte. -/
theorem follows_feedAll (rests : view.Rests p.toParser) (chunks : List Bytes) :
    Follows (p.feedAll chunks) (p.reader.feedAll chunks) := by
  induction chunks generalizing p with
  | nil =>
    rw [feedAll, Reader.feedAll, isDone_reader rests]
    exact ⟨rfl, rests, rfl⟩
  | cons chunk chunks ih =>
    have call := follows_feed rests chunk
    rw [feedAll, Reader.feedAll]
    generalize p.feed chunk = run at call ⊢
    generalize p.reader.feed chunk = run' at call ⊢
    obtain ⟨next, answer⟩ := run
    obtain ⟨next', answer'⟩ := run'
    obtain ⟨rfl, left⟩ := call
    cases answer with
    | error failure => exact ⟨rfl, left⟩
    | ok answer =>
      obtain ⟨rests', rfl⟩ := left
      exact ih rests'

/-- What is shown at the end of a feeding, or the failure that ended it. -/
def report (run : Parser × Except Failure Bool) : Except Failure Report :=
  run.2.map fun _ => ⟨run.1.isDone, run.1.head, run.1.consumed, run.1.bodyOffset⟩

theorem head_reader (p : Parser) : p.reader.head = p.head := by
  obtain ⟨⟨⟨state, linedUp, head, key⟩, carry, consumed⟩, bodyIndex⟩ := p
  cases state <;> rfl

theorem bodyOffset_reader (rests : view.Rests p.toParser) :
    p.reader.bodyOffset = p.bodyOffset := by
  rw [Reader.bodyOffset, isDone_reader rests]
  rfl

/-- What follows shows the same. -/
theorem Follows.report_eq {call : Parser × Except Failure Bool}
    {call' : Reader × Except Failure Bool} (follows : Follows call call') :
    report call = Reader.report call' := by
  obtain ⟨p, failure | answer⟩ := call
  · rw [Reader.report, ← follows.1]
    rfl
  · obtain ⟨next', answer'⟩ := call'
    obtain ⟨rfl, rests, rfl⟩ := follows
    simp only [Reader.report, isDone_reader rests, head_reader, bodyOffset_reader rests]
    rfl

theorem feedAll_of_done (done : p.isDone = true) (chunks : List Bytes) :
    p.feedAll chunks = (p, .ok true) := by
  induction chunks with
  | nil => rw [feedAll, done]
  | cons chunk chunks ih =>
    have same : p.feed chunk = (p, .ok true) := by simp [feed, feedWindow, done]
    simp only [feedAll, same, ih]

/-- Once the head is complete, more chunks change nothing. -/
theorem feedAll_append_of_done {chunks : List Bytes} (done : (p.feedAll chunks).1.isDone = true)
    (more : List Bytes) : p.feedAll (chunks ++ more) = p.feedAll chunks := by
  induction chunks generalizing p with
  | nil =>
    have done : p.isDone = true := done
    rw [List.nil_append, feedAll_of_done done, feedAll_of_done done]
  | cons chunk chunks ih =>
    simp only [List.cons_append, feedAll] at done ⊢
    rcases feeding : p.feed chunk with ⟨next, failure | answer⟩
    · rfl
    · simp only [feeding] at done ⊢
      exact ih done

/-- Chunks fed one after the other end as the whole stream does, in the same failure or
showing the same, wherever the cuts fall in a token. If the head gets complete, the index of
its body counts from the chunk that completes it, and more chunks change nothing. -/
theorem report_chunks (capacity : Nat) (chunks more : List Bytes) :
    let fresh := start ⟨capacity, none⟩
    let cut := fresh.feedAll chunks
    report cut = report (fresh.feed chunks.flatten) ∧
      (cut.1.isDone = true →
        (∃ before last after, chunks = before ++ last :: after ∧
          (fresh.feedAll before).1.isDone = false ∧
          (fresh.feedAll (before ++ [last])).1.isDone = true ∧
          ∃ index, cut.1.bodyIndex = some index ∧
            cut.1.bodyOffset = some (before.flatten.length + index)) ∧
        fresh.feedAll (chunks ++ more) = cut) := by
  intro fresh cut
  have rests : view.Rests fresh.toParser := rests_start _
  have follows (chunks : List Bytes) := follows_feedAll rests chunks
  have ofReader := Reader.report_feedAll capacity chunks more
  refine ⟨?_, fun done => ⟨?_, feedAll_append_of_done done more⟩⟩
  · rw [(follows chunks).report_eq, (follows_feed rests chunks.flatten).report_eq]
    exact ofReader.1
  · obtain ⟨⟨before, last, after, split, open', closed, index, atIndex, offset⟩, -⟩ :=
      ofReader.2 ((follows chunks).isDone.symm.trans done)
    obtain ⟨rests', same⟩ := (follows chunks).reader_eq done
    refine ⟨before, last, after, split, (follows before).isDone.trans open',
      (follows _).isDone.trans closed, index, ?_, ?_⟩
    · exact (congrArg Reader.bodyIndex same).trans atIndex
    · rw [← bodyOffset_reader rests', same]
      exact offset

end Parser

end Octets.Head
