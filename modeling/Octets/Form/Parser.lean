import Octets.Form.Body
import Octets.Stream.Machine

/-!
# Form bodies read through a cursor

The machine that reads the body of a form in chunks. How many bytes of the delimiter are
matched stands in a counter of its own, beside the carry, and so does what is lined up
behind a line feed: another header line, or the data of the part.

## Main definitions

* `Form.State`, `Form.Stage` — what the machine remembers
* `Form.scanContent` — the data of a part, up to the delimiter
* `Form.step`, `Form.machine` — the machine
* `Form.Parser` — a form body that is being read; `Parser.feed`, `Parser.feedAll`,
  `Parser.feedWindow`, `Parser.finish`
-/

namespace Octets.Form

open Octets.Stream (Place Step)

/-- Where the machine is. -/
inductive State where
  | start
  | dash
  | boundary
  | keyRest
  | nextKey
  | value
  | valueRest
  /-- In front of the line feed behind which another state is lined up. -/
  | lineFeed
  | header
  | headerRest
  | contentStart
  | content
  | afterBoundary
  | lastDash
  | done
  deriving DecidableEq, Repr

/-- What the machine remembers: where it is, the state behind the line feed, how much of the
delimiter is matched, what it has read, the key whose value comes, the delimiter, and the
headers of the part. -/
structure Stage where
  state : State
  linedUp : State
  matched : Nat
  form : Form
  key : String
  delimiter : Bytes
  part : Part

namespace Stage

/-- Before the first byte. -/
def start : Stage := ⟨.start, .start, 0, .empty, "", [], .empty⟩

/-- Goes on in another state. -/
def enter (s : Stage) (state : State) : Stage := { s with state }

/-- Goes on behind a line feed. -/
def enterBehindLineFeed (s : Stage) (linedUp : State) : Stage :=
  { s with state := .lineFeed, linedUp }

/-- Whether the body has been read to its end. -/
def isDone (s : Stage) : Bool := s.state == .done

/-- How many steps in a row take nothing: one, where a dash may come, and where the data of a
part begin. -/
def rank (s : Stage) : Nat := if s.state = .dash ∨ s.state = .contentStart then 1 else 0

/-- The phase that the state, what is lined up and what is matched stand for. -/
def phase (s : Stage) : Phase :=
  match s.state with
  | .start => .start
  | .dash => .dash
  | .boundary => .boundary
  | .keyRest => .keyRest
  | .nextKey => .nextKey
  | .value => .value
  | .valueRest => .valueRest
  | .lineFeed => if s.linedUp = .contentStart then .contentLineFeed else .headerLineFeed
  | .header => .header
  | .headerRest => .headerRest
  | .contentStart => .contentStart
  | .content => .content s.matched
  | .afterBoundary => .afterBoundary
  | .lastDash => .lastDash
  | .done => .done

/-- What has been read, with the phase. -/
def memory (s : Stage) : Memory := ⟨s.phase, s.form, s.key, s.delimiter, s.part⟩

/-- Keeps what has been read, but for the phase. -/
def keep (s : Stage) (m : Memory) : Stage :=
  { s with form := m.form, key := m.key, delimiter := m.delimiter, part := m.part }

/-- Keeps what comes of a token. -/
def store (s : Stage) (put : Memory → Except Fault Memory) : Except Fault Stage :=
  (put s.memory).map s.keep

end Stage

/-- Ends the token at the cursor, keeps what comes of it, and goes over the byte behind it. -/
def closeWith (p : Place Stage) (put : Memory → Bytes → Except Fault Memory)
    (next : Stage → Stage) : Step Stage Fault :=
  p.closeBehind .tokenTooLong fun token => (p.memory.store (put · token)).map next

/-- Stores the part whose data and delimiter end at the cursor. -/
def storePart (p : Place Stage) : Step Stage Fault :=
  p.close .tokenTooLong fun token =>
    (p.memory.store (·.storePart token)).map fun s => { s.enter .afterBoundary with matched := 0 }

theorem length_rest_next_lt {p : Place Stage} {b : UInt8} (peeked : p.cursor.peek = some b) :
    p.next.cursor.rest.length < p.cursor.rest.length := by
  obtain ⟨rest, unread⟩ := List.head?_eq_some_iff.mp peeked
  simp [Place.next, Cursor.rest_advance, unread]

theorem length_rest_skip_lt {p : Place Stage} {b : UInt8} {cls : UInt8 → Bool}
    (peeked : p.cursor.peek = some b) (skipped : cls b = true) :
    (p.skip cls).cursor.rest.length < p.cursor.rest.length := by
  obtain ⟨rest, unread⟩ := List.head?_eq_some_iff.mp peeked
  rw [Place.rest_skip, unread, List.dropWhile_cons, if_pos skipped, List.length_cons]
  exact Nat.lt_succ_of_le (List.dropWhile_suffix cls).length_le

/-- Goes on in the data of a part up to the delimiter, or to the end of the chunk. Where
nothing of the delimiter is matched, all bytes up to the next carriage return are skipped at
once. -/
def scanContent (p : Place Stage) : Step Stage Fault :=
  match _peeked : p.cursor.peek with
  | none => .goes p
  | some b =>
    if p.memory.matched = 0 ∧ b ≠ Byte.cr then scanContent (p.skip fun c => !(c == Byte.cr))
    else if p.memory.delimiter[p.memory.matched]? = some b then
      let next := { p.next with memory := { p.memory with matched := p.memory.matched + 1 } }
      if p.memory.matched + 1 = p.memory.delimiter.length then storePart next
      else scanContent next
    else
      let matched := if b = Byte.cr then 1 else 0
      scanContent { p.next with memory := { p.memory with matched } }
termination_by p.cursor.rest.length
decreasing_by
  · rename_i outside
    exact length_rest_skip_lt _peeked (by simpa using outside.2)
  all_goals exact length_rest_next_lt _peeked

/-- A step in a state. -/
def stepIn (p : Place Stage) : State → Step Stage Fault
  | .start =>
    match p.begin? (· == Byte.minus) (p.memory.enter .dash) with
    | some next => .goes next
    | none => p.begin isKey (p.memory.enter .keyRest) .body
  | .dash =>
    match p.cursor.read? (Scan.byte (· == Byte.minus)) with
    | some cursor => .goes { p with cursor, memory := p.memory.enter .boundary }
    | none => .goes { p with memory := p.memory.enter .keyRest }
  | .boundary =>
    p.through isBoundary fun b p =>
      if b = Byte.cr then closeWith p Memory.storeBoundary (·.enterBehindLineFeed .header)
      else .fails .boundaryStart p
  | .keyRest =>
    p.through isKey fun b p =>
      if b = Byte.equal then closeWith p Memory.storeKey (·.enter .value) else .fails .key p
  | .nextKey => p.begin isKey (p.memory.enter .keyRest) .key
  | .value =>
    let storeEmpty (state : State) : Step Stage Fault :=
      .goes { p.next with memory := (p.memory.keep (p.memory.memory.storeValue "")).enter state }
    if p.cursor.peek = some Byte.ampersand then storeEmpty .nextKey
    else if p.cursor.peek.any isTerminator then storeEmpty .done
    else p.begin isText (p.memory.enter .valueRest) .value
  | .valueRest =>
    p.through isValue fun b p =>
      if b = Byte.ampersand then closeWith p Memory.storeToken (·.enter .nextKey)
      else if isTerminator b then closeWith p Memory.storeToken (·.enter .done)
      else .fails .value p
  | .lineFeed => p.expect (· == Byte.lf) (p.memory.enter p.memory.linedUp) .lineFeed
  | .header =>
    if p.cursor.peek = some Byte.cr then
      if p.memory.part.name.isNone then .fails .contentDisposition p
      else .goes { p.next with memory := p.memory.enterBehindLineFeed .contentStart }
    else p.begin isHeader (p.memory.enter .headerRest) .partHeader
  | .headerRest =>
    p.through isHeader fun b p =>
      if b = Byte.cr then closeWith p Memory.storeHeader (·.enterBehindLineFeed .header)
      else .fails .partHeader p
  | .contentStart =>
    .goes { p with
      memory := { p.memory.enter .content with matched := 0 }
      carry := p.carry.begin p.cursor.pos }
  | .content => scanContent p
  | .afterBoundary =>
    match p.cursor.read? (Scan.byte (· == Byte.cr)) with
    | some cursor => .goes { p with cursor, memory := p.memory.enterBehindLineFeed .header }
    | none => p.expect (· == Byte.minus) (p.memory.enter .lastDash) .boundaryEnd
  | .lastDash => p.expect (· == Byte.minus) (p.memory.enter .done) .boundaryEnd
  | .done => .goes p

/-- One step of the machine. -/
def step (p : Place Stage) : Step Stage Fault := stepIn p p.memory.state

theorem takes_closeWith {p : Place Stage} (unread : p.cursor.rest ≠ [])
    (put : Memory → Bytes → Except Fault Memory) (next : Stage → Stage) :
    (closeWith p put next).Takes p :=
  Step.takes_closeBehind unread

theorem takes_storePart {p q : Place Stage}
    (shorter : q.cursor.rest.length < p.cursor.rest.length) : (storePart q).Takes p := by
  unfold storePart Place.close
  cases q.carry.collect q.cursor.bytes q.cursor.pos with
  | error limit => trivial
  | ok collected =>
    obtain ⟨token, carry⟩ := collected
    simp only
    split
    · trivial
    · exact shorter

/-- The data of a part do not go back behind the place where they are taken up. -/
theorem takes_scanContent_of_lt {p q : Place Stage}
    (shorter : q.cursor.rest.length < p.cursor.rest.length) : (scanContent q).Takes p := by
  fun_induction scanContent q with
  | case1 q => exact shorter
  | case2 q b peeked outside ih =>
    exact ih (Nat.lt_trans (length_rest_skip_lt peeked (by simpa using outside.2)) shorter)
  | case3 q b peeked =>
    exact takes_storePart (Nat.lt_trans (length_rest_next_lt peeked) shorter)
  | case4 q b peeked _ _ next _ ih =>
    exact ih (Nat.lt_trans (length_rest_next_lt peeked) shorter)
  | case5 q b peeked _ _ matched ih =>
    exact ih (Nat.lt_trans (length_rest_next_lt peeked) shorter)

theorem takes_scanContent {p : Place Stage} (unread : p.cursor.rest ≠ []) :
    (scanContent p).Takes p := by
  obtain ⟨b, rest, unread⟩ := List.exists_cons_of_ne_nil unread
  have peeked : p.cursor.peek = some b := by simp [Cursor.peek, unread]
  rw [scanContent]
  split
  · simp_all
  · rename_i c peeked'
    obtain rfl : b = c := Option.some.inj (peeked.symm.trans peeked')
    split
    · rename_i outside
      exact takes_scanContent_of_lt (length_rest_skip_lt peeked (by simpa using outside.2))
    · split
      · simp only
        split
        · exact takes_storePart (length_rest_next_lt peeked)
        · exact takes_scanContent_of_lt (length_rest_next_lt peeked)
      · exact takes_scanContent_of_lt (length_rest_next_lt peeked)

/-- In the other states a step takes a byte at least. -/
theorem takes_stepIn {p : Place Stage} (unread : p.cursor.rest ≠ []) {state : State}
    (takes : state ≠ .dash ∧ state ≠ .contentStart) (pending : state ≠ .done) :
    (stepIn p state).Takes p := by
  cases state with
  | nextKey => exact Step.takes_begin
  | lineFeed | lastDash => exact Step.takes_expect
  | content => exact takes_scanContent unread
  | boundary | keyRest | valueRest | headerRest =>
    simp only [stepIn]
    refine Step.takes_through unread fun b q unread => ?_
    repeat' split
    all_goals first | trivial | exact takes_closeWith unread _ _
  | start =>
    simp only [stepIn]
    split
    · exact Step.takes_begin? ‹_›
    · exact Step.takes_begin
  | value =>
    simp only [stepIn]
    repeat' split
    all_goals first | exact Step.takes_begin | exact Step.takes_goes_of_advance unread rfl
  | header =>
    simp only [stepIn]
    repeat' split
    all_goals
      first | trivial | exact Step.takes_begin | exact Step.takes_goes_of_advance unread rfl
  | afterBoundary =>
    simp only [stepIn]
    split
    · obtain ⟨_, ahead⟩ := Cursor.advance_of_read?_byte ‹_›
      exact Step.takes_goes_of_advance unread ahead
    · exact Step.takes_expect
  | dash => exact absurd rfl takes.1
  | contentStart => exact absurd rfl takes.2
  | done => exact absurd rfl pending

/-- Only where a dash may come, and where the data of a part begin, a step may take nothing. -/
theorem step_progresses (p : Place Stage) (unread : p.cursor.rest ≠ [])
    (pending : p.memory.isDone = false) : (step p).Progresses Stage.rank p := by
  unfold step
  cases state : p.memory.state with
  | dash =>
    simp only [stepIn]
    split
    · obtain ⟨_, ahead⟩ := Cursor.advance_of_read?_byte ‹_›
      exact (Step.takes_goes_of_advance unread ahead).progresses Stage.rank
    · exact .inr ⟨rfl, by simp [Stage.rank, Stage.enter, state]⟩
  | contentStart => exact .inr ⟨rfl, by simp [Stage.rank, Stage.enter, state]⟩
  | _ =>
    refine Step.Takes.progresses (takes_stepIn unread (by simp) fun done => ?_) Stage.rank
    simp [Stage.isDone, state, done] at pending

/-- Form bodies, read in chunks. -/
def machine : Stream.Machine Stage Fault where
  isDone := Stage.isDone
  step := step
  tooLong := .tokenTooLong
  rank := Stage.rank
  progresses := step_progresses

/-- A form body that is being read. -/
structure Parser extends Stream.Parser Stage

namespace Parser

/-- A parser before the first byte of a body. -/
def start (options : Stream.Options) : Parser := ⟨⟨.start, .start options, 0⟩⟩

/-- What has been read. -/
def form (p : Parser) : Form := p.memory.form

/-- Whether the body has been read to its end. -/
def isDone (p : Parser) : Bool := p.memory.isDone

/-- The boundary of a multipart form with the dashes in front of it, once it has been
read. -/
def boundary (p : Parser) : Option Bytes :=
  match p.memory.delimiter with
  | _ :: _ :: boundary => some boundary
  | _ => none

/-- Feeds a window of a buffer as the next chunk of the stream. -/
def feedWindow (p : Parser) (buffer : Bytes) (start stop : Nat) :
    Parser × Except Failure Bool :=
  let (next, answer) := machine.feedWindow p.toParser buffer start stop
  (⟨next⟩, answer)

/-- Feeds the next chunk of the stream. -/
def feed (p : Parser) (chunk : Bytes) : Parser × Except Failure Bool :=
  p.feedWindow chunk 0 chunk.length

/-- Feeds several chunks, up to the first failure. -/
def feedAll (p : Parser) : List Bytes → Parser × Except Failure Bool
  | [] => (p, .ok p.isDone)
  | chunk :: chunks =>
    match p.feed chunk with
    | (next, .ok _) => feedAll next chunks
    | (next, .error failure) => (next, .error failure)

/-- Says that the body has ended. An encoded form may end here; a value that is open is
stored, and so is one that would have come. The token of such a value is given out by the
carry even if it cannot be decoded. -/
def finish (p : Parser) : Parser × Except Failure Form :=
  let fail (p : Parser) (fault : Fault) : Parser × Except Failure Form :=
    (p, .error ⟨fault, p.consumed⟩)
  let succeed (p : Parser) (s : Stage) : Parser × Except Failure Form :=
    (⟨{ p.toParser with memory := s.enter .done }⟩, .ok s.form)
  match p.memory.state with
  | .done | .start | .nextKey => succeed p p.memory
  | .value => succeed p (p.memory.keep (p.memory.memory.storeValue ""))
  | .valueRest =>
    match p.carry.collect [] 0 with
    | .error limit => fail p (.tokenTooLong limit)
    | .ok (token, carry) =>
      let p : Parser := ⟨{ p.toParser with carry }⟩
      match p.memory.store (·.storeToken token) with
      | .error fault => fail p fault
      | .ok s => succeed p s
  | .contentStart | .content => fail p .contentBody
  | _ => fail p .incomplete

end Parser

end Octets.Form
