import Octets.Request.Head
import Octets.Stream.Machine

/-!
# Request heads read through a cursor

The machine that reads the head of a request in chunks. Where spaces may come, it
remembers the phase that is lined up behind them.

## Main definitions

* `Head.State`, `Head.Stage` — what the machine remembers
* `Head.step`, `Head.machine` — the machine
* `Head.Parser` — a request head that is being read; `Parser.feed`, `Parser.feedAll`,
  `Parser.feedWindow`
-/

namespace Octets.Head

open Octets.Stream (Place Step)

/-- Where the machine is. -/
inductive State where
  /-- At spaces in front of the phase that is lined up. -/
  | spaces
  | phase (phase : Phase)
  deriving DecidableEq, Repr

/-- What the machine remembers: where it is, the phase behind the spaces, what it has
read, and the name of the field whose value comes. -/
structure Stage where
  state : State
  linedUp : Phase
  head : Head
  key : String

namespace Stage

/-- Before the first byte. -/
def start : Stage := ⟨.phase .method, .method, .empty, ""⟩

/-- Goes on in another phase. -/
def enter (s : Stage) (phase : Phase) : Stage := { s with state := .phase phase }

/-- Goes on in another phase, behind any number of spaces. -/
def enterBehindSpaces (s : Stage) (phase : Phase) : Stage :=
  { s with state := .spaces, linedUp := phase }

/-- Whether the head is complete. -/
def isDone (s : Stage) : Bool := s.state == .phase .done

/-- How many steps in a row take nothing: one, where no space comes. -/
def rank (s : Stage) : Nat := if s.state = .spaces then 1 else 0

def storeMethod (s : Stage) (token : Bytes) : Stage :=
  { s with head := { s.head with method := Utf8.decodeLossy token } }

def storeUri (s : Stage) (token : Bytes) : Stage :=
  { s with head := { s.head with uri := Utf8.decodeLossy token } }

def storeVersion (s : Stage) (token : Bytes) : Stage :=
  { s with head := { s.head with version := Utf8.decodeLossy token } }

def storeKey (s : Stage) (token : Bytes) : Stage := { s with key := Utf8.decodeLossy token }

/-- Remembers the value of the field. -/
def storeField (s : Stage) (token : Bytes) : Stage :=
  { s with
    head := { s.head with fields := s.head.fields.insert s.key (Utf8.decodeLossy token) }
    key := "" }

end Stage

/-- Ends the token at the cursor, stores it, and goes over the byte behind it. -/
def closeWith (p : Place Stage) (store : Bytes → Stage) : Step Stage Fault :=
  p.closeBehind .tokenTooLong fun token => .ok (store token)

/-- A step at spaces: over all of them, and to the phase behind them if the chunk goes on. -/
def skipSpaces (p : Place Stage) : Step Stage Fault :=
  let p := p.skip (· == Byte.space)
  .goes (if p.cursor.rest.isEmpty then p else { p with memory := p.memory.enter p.memory.linedUp })

/-- A step in a phase. -/
def stepIn (p : Place Stage) : Phase → Step Stage Fault
  | .method => p.begin Byte.isUpper (p.memory.enter .methodRest) .method
  | .methodRest =>
    p.through Byte.isUpper fun b p =>
      if b = Byte.space then
        closeWith p fun token => (p.memory.storeMethod token).enterBehindSpaces .uri
      else .fails .method p
  | .uri => p.begin isVisible (p.memory.enter .uriRest) .uri
  | .uriRest =>
    p.through isVisible fun b p =>
      if b = Byte.space then
        closeWith p fun token => (p.memory.storeUri token).enterBehindSpaces .version
      else .fails .uri p
  | .version => p.begin (· == Byte.capitalH) (p.memory.enter .versionRest) .version
  | .versionRest =>
    p.through isVisible fun b p =>
      let close (state : State) : Step Stage Fault :=
        closeWith p fun token => { p.memory.storeVersion token with state, linedUp := .lineEnd }
      if b = Byte.space then close .spaces
      else if b = Byte.cr then close (.phase .lineFeed)
      else if b = Byte.lf then close (.phase .key)
      else .fails .version p
  | .lineEnd =>
    match p.cursor.next with
    | none => .fails .carriageReturn { p with cursor := p.cursor.retreat 1 }
    | some (b, cursor) =>
      if b = Byte.cr then .goes { p with cursor, memory := p.memory.enter .lineFeed }
      else if b = Byte.lf then .goes { p with cursor, memory := p.memory.enter .key }
      else .fails .carriageReturn { p with cursor := cursor.retreat 1 }
  | .lineFeed => p.expect (· == Byte.lf) (p.memory.enter .key) .lineFeed
  | .key =>
    match p.begin? Byte.isAlpha (p.memory.enter .keyRest) with
    | some next => .goes next
    | none =>
      if p.cursor.peek = some Byte.lf then .goes { p.next with memory := p.memory.enter .done }
      else if p.cursor.peek = some Byte.cr then
        .goes { p.next with memory := p.memory.enter .lastLineFeed }
      else .fails .key p
  | .lastLineFeed => p.expect (· == Byte.lf) (p.memory.enter .done) .lineFeed
  | .keyRest =>
    p.through isKey fun b p =>
      if b = Byte.colon then
        closeWith p fun token => (p.memory.storeKey token).enterBehindSpaces .value
      else if b = Byte.space then
        closeWith p fun token => (p.memory.storeKey token).enterBehindSpaces .colon
      else .fails .key p
  | .colon => p.expect (· == Byte.colon) (p.memory.enterBehindSpaces .value) .colon
  | .value => p.begin isVisible (p.memory.enter .valueRest) .value
  | .valueRest =>
    p.through isText fun b p =>
      if b = Byte.cr then closeWith p fun token => (p.memory.storeField token).enter .lineFeed
      else if b = Byte.lf then closeWith p fun token => (p.memory.storeField token).enter .key
      else .fails .value p
  | .done => .goes p

/-- One step of the machine. -/
def step (p : Place Stage) : Step Stage Fault :=
  match p.memory.state with
  | .spaces => skipSpaces p
  | .phase phase => stepIn p phase

theorem takes_closeWith {p : Place Stage} (unread : p.cursor.rest ≠ [])
    (store : Bytes → Stage) : (closeWith p store).Takes p :=
  Step.takes_closeBehind unread

/-- A step in a phase takes a byte at least. -/
theorem takes_stepIn (p : Place Stage) (unread : p.cursor.rest ≠ []) {phase : Phase}
    (pending : phase ≠ .done) : (stepIn p phase).Takes p := by
  cases phase with
  | method | uri | version | value => exact Step.takes_begin
  | lineFeed | lastLineFeed | colon => exact Step.takes_expect
  | methodRest | uriRest | versionRest | keyRest | valueRest =>
    simp only [stepIn]
    refine Step.takes_through unread fun b q unread => ?_
    repeat' split
    all_goals first | trivial | exact takes_closeWith unread _
  | lineEnd =>
    simp only [stepIn]
    cases read : p.cursor.next with
    | none => trivial
    | some taken =>
      obtain ⟨b, cursor⟩ := taken
      obtain ⟨_, _, same⟩ := Option.map_eq_some_iff.mp read
      obtain ⟨rfl, rfl⟩ := Prod.mk.inj same
      simp only
      repeat' split
      all_goals first | trivial | exact Step.takes_goes_of_advance unread rfl
  | key =>
    simp only [stepIn]
    cases begins : p.begin? Byte.isAlpha (p.memory.enter .keyRest) with
    | some next => exact Step.takes_begin? begins
    | none =>
      simp only
      repeat' split
      all_goals first | trivial | exact Step.takes_goes_of_advance unread rfl
  | done => exact absurd rfl pending

/-- Where no space comes, a step takes nothing, but only that one. -/
theorem step_progresses (p : Place Stage) (unread : p.cursor.rest ≠ [])
    (pending : p.memory.isDone = false) : (step p).Progresses Stage.rank p := by
  unfold step
  split
  · rename_i state
    have shorter : (p.skip (· == Byte.space)).cursor.rest.length ≤ p.cursor.rest.length := by
      rw [Place.rest_skip]
      exact (List.dropWhile_suffix _).length_le
    simp only [skipSpaces, Step.Progresses]
    split
    · rename_i ended
      rw [List.isEmpty_iff.mp ended]
      exact .inl (List.length_pos_iff.mpr unread)
    · have waits : p.memory.rank = 1 := if_pos state
      rw [waits]
      exact (Nat.lt_or_eq_of_le shorter).imp_right fun same => ⟨same, Nat.one_pos⟩
  · rename_i phase state
    refine (takes_stepIn p unread ?_).progresses Stage.rank
    rintro rfl
    simp [Stage.isDone, state] at pending

/-- Request heads, read in chunks. -/
def machine : Stream.Machine Stage Fault where
  isDone := Stage.isDone
  step := step
  tooLong := .tokenTooLong
  rank := Stage.rank
  progresses := step_progresses

/-- A request head that is being read. Once it is complete, `bodyIndex` is the index of
the first byte behind it in the buffer that completed it. -/
structure Parser extends Stream.Parser Stage where
  bodyIndex : Option Nat

namespace Parser

/-- A parser before the first byte of a head. -/
def start (options : Stream.Options) : Parser := ⟨⟨.start, .start options, 0⟩, none⟩

/-- What has been read. -/
def head (p : Parser) : Head := p.memory.head

/-- Whether the head is complete. -/
def isDone (p : Parser) : Bool := p.memory.isDone

/-- Where in the stream the body begins. -/
def bodyOffset (p : Parser) : Option Nat := if p.isDone then some p.consumed else none

/-- Feeds a window of a buffer as the next chunk of the stream. A complete head takes
nothing more. -/
def feedWindow (p : Parser) (buffer : Bytes) (start stop : Nat) :
    Parser × Except Failure Bool :=
  if p.isDone then (p, .ok true)
  else
    let (next, answer) := machine.feedWindow p.toParser buffer start stop
    let bodyIndex :=
      match answer with
      | .ok true => some ((Cursor.within buffer start stop).pos + (next.consumed - p.consumed))
      | _ => p.bodyIndex
    (⟨next, bodyIndex⟩, answer)

/-- Feeds the next chunk of the stream. -/
def feed (p : Parser) (chunk : Bytes) : Parser × Except Failure Bool :=
  p.feedWindow chunk 0 chunk.length

/-- Feeds several chunks, up to the first failure. -/
def feedAll (p : Parser) : List Bytes → Parser × Except Failure Bool
  | [] => (p, .ok p.isDone)
  | chunk :: chunks =>
    match p.feed chunk with
    | (next, .ok _) => feedAll next chunks
    | (next, .error failure) => (next, .error failure)

end Parser

end Octets.Head
