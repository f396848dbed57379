import Octets.Form.Encoding
import Octets.Form.Part
import Octets.Stream.Grammar
import Std.Data.TreeMap

/-!
# Form bodies

The body of a form in one of two grammars, told apart by its first two bytes. An
encoded form is a list of pairs: key, equals sign, value, with ampersands in
between. It ends with a carriage return, a zero byte, or the body. A multipart
form opens with two dashes, a boundary and a line end; then come its parts, each
with header lines, an empty line and its data, and each closed by the
*delimiter*: a line end, two dashes and the boundary again. Two dashes behind
the delimiter end the body.

The data of a part is read in one pass: how much of the delimiter the last bytes
have matched is part of the phase, so it survives the end of a chunk. A
carriage return occurs in a delimiter only as its first byte, so a byte that
does not go on with the delimiter either begins it anew or is outside of it.

A part with a file name or a content type is a file; any other is a field. Of
several fields, or files, with one name the last one counts.

## Main definitions

* `Form`, `Form.File` — what a form body says
* `Form.Fault`, `Fault.message` — why a byte does not fit
* `Form.grammar` — form bodies as a grammar for streams
* `Form.Reader` — a form body that is being read; `Reader.feed`,
  `Reader.feedAll`, `Reader.feedWindow`, `Reader.finish`
-/

namespace Octets

/-- A part of a form that is a file; a name or content type that was not sent is
empty. -/
structure Form.File where
  name : String
  contentType : String
  data : Bytes
  deriving DecidableEq, Repr

/-- What a form body says. -/
structure Form where
  fields : Std.TreeMap String String
  files : Std.TreeMap String Form.File

namespace Form

/-- Nothing said yet. -/
def empty : Form := ⟨∅, ∅⟩

/-- The value of a field. -/
def get? (form : Form) (key : String) : Option String := form.fields[key]?

/-- Why a byte does not fit, or a body may not end. -/
inductive Fault where
  | body
  | key
  | value
  | boundaryStart
  | lineFeed
  | partHeader
  | contentDisposition
  | boundaryEnd
  | contentBody
  | incomplete
  | tokenTooLong (limit : Nat)
  deriving DecidableEq, Repr

/-- The text of a fault. -/
def Fault.message : Fault → String
  | body => "invalid body start"
  | key => "invalid form key"
  | value => "invalid form value"
  | boundaryStart => "invalid multipart boundary"
  | lineFeed => "expected line feed"
  | partHeader => "invalid part header"
  | contentDisposition => "part without a content-disposition name"
  | boundaryEnd => "invalid boundary terminator"
  | contentBody => "part content not closed by a boundary"
  | incomplete => "body ended early"
  | tokenTooLong limit => "token longer than " ++ toString limit ++ " bytes"

/-- Where in a body the next byte stands. -/
inductive Phase where
  | start
  /-- Behind a first dash, which a second one makes the start of a boundary. -/
  | dash
  | boundary
  | keyRest
  /-- Behind an ampersand. -/
  | nextKey
  | value
  | valueRest
  /-- Behind the carriage return of a header line or of the line of a boundary. -/
  | headerLineFeed
  /-- Behind the carriage return of the empty line. -/
  | contentLineFeed
  | header
  | headerRest
  /-- Before the first byte of the data of a part. -/
  | contentStart
  /-- In the data of a part, of which the last bytes match so many bytes of the
  delimiter. -/
  | content (matched : Nat)
  | afterBoundary
  | lastDash
  | done
  deriving DecidableEq, Repr

/-- The phases inside a token. -/
def Phase.isInside : Phase → Bool
  | dash | boundary | keyRest | valueRest | headerRest | content _ => true
  | _ => false

/-- What a reader of bodies remembers: where it is, what it has read, the key
whose value comes, the delimiter, and the headers of the part. -/
structure Memory where
  phase : Phase
  form : Form
  key : String
  delimiter : Bytes
  part : Part

namespace Memory

/-- Before the first byte. -/
def start : Memory := ⟨.start, .empty, "", [], .empty⟩

/-- Goes on in another phase. -/
def enter (m : Memory) (phase : Phase) : Memory := { m with phase }

/-- Remembers the value of the key. -/
def storeValue (m : Memory) (value : String) : Memory :=
  { m with form := { m.form with fields := m.form.fields.insert m.key value }, key := "" }

/-- Decodes a token as the key whose value comes. -/
def storeKey (m : Memory) (token : Bytes) : Except Fault Memory :=
  match decode token with
  | none => .error .key
  | some key => .ok { m with key := Utf8.decodeLossy key }

/-- Decodes a token as the value of the key. -/
def storeToken (m : Memory) (token : Bytes) : Except Fault Memory :=
  match decode token with
  | none => .error .value
  | some value => .ok (m.storeValue (Utf8.decodeLossy value))

/-- Remembers the delimiter that belongs to an opening boundary. Behind its two
dashes there must be at least two bytes. -/
def storeBoundary (m : Memory) (token : Bytes) : Except Fault Memory :=
  if token.length ≤ 3 then .error .boundaryStart
  else .ok { m with delimiter := Byte.cr :: Byte.lf :: token }

/-- Reads a header line of the part. -/
def storeHeader (m : Memory) (line : Bytes) : Except Fault Memory :=
  match m.part.readLine line with
  | .error .noField => .error .partHeader
  | .error .disposition => .error .contentDisposition
  | .ok part => .ok { m with part }

/-- Stores a part, given its data and the delimiter behind them. -/
def storePart (m : Memory) (token : Bytes) : Except Fault Memory :=
  let data := token.take (token.length - m.delimiter.length)
  match m.part.name with
  | none => .error .contentDisposition
  | some name =>
    let form :=
      if m.part.filename.isSome || m.part.contentType.isSome then
        let file := ⟨m.part.filename.getD "", m.part.contentType.getD "", data⟩
        { m.form with files := m.form.files.insert name file }
      else { m.form with fields := m.form.fields.insert name (Utf8.decodeLossy data) }
    .ok { m with form, part := .empty }

section Enter

variable {used : Except Fault Memory} {phase : Phase} {next : Memory} {fault : Fault}

theorem map_enter_eq_ok_iff :
    used.map (·.enter phase) = .ok next ↔ ∃ m, used = .ok m ∧ next = m.enter phase := by
  cases used <;> simp [Except.map, eq_comm]

theorem map_enter_eq_error_iff : used.map (·.enter phase) = .error fault ↔ used = .error fault := by
  cases used <;> simp [Except.map]

end Enter

end Memory

/-- A byte of a value or a header line, a tab in a header line aside. -/
def isText (b : UInt8) : Bool := Byte.space ≤ b

/-- A byte of a key. -/
def isKey (b : UInt8) : Bool := isText b && b != Byte.equal

/-- A byte of a value. -/
def isValue (b : UInt8) : Bool := isText b && b != Byte.ampersand

/-- A byte of a header line. -/
def isHeader (b : UInt8) : Bool := isText b || b == Byte.tab

/-- The marks that a boundary may hold beside letters and digits. -/
def boundaryMarks : Bytes := Bytes.ofText "'()+,-./:=?_"

/-- A byte of a boundary. -/
def isBoundary (b : UInt8) : Bool := Byte.isAlphaNumeric b || boundaryMarks.contains b

/-- A byte that ends an encoded form. -/
def isTerminator (b : UInt8) : Bool := b == Byte.cr || b == Byte.nul

/-- How many bytes of the delimiter are matched when one more byte has come. -/
def advanceMatch (delimiter : Bytes) (matched : Nat) (b : UInt8) : Nat :=
  if delimiter[matched]? = some b then matched + 1 else if b = Byte.cr then 1 else 0

/-- How a byte of the data of a part stands to the open token. -/
def visitContent (m : Memory) (matched : Nat) (b : UInt8) : Stream.Move Memory Fault :=
  let matched := advanceMatch m.delimiter matched b
  if matched = m.delimiter.length then
    .last fun token => (m.storePart token).map (·.enter .afterBoundary)
  else .inside (m.enter (.content matched))

/-- How a byte of an encoded key stands to the open token. -/
def visitKey (m : Memory) (b : UInt8) : Stream.Move Memory Fault :=
  if isKey b then .inside (m.enter .keyRest)
  else if b = Byte.equal then .behind fun token => (m.storeKey token).map (·.enter .value)
  else .refuse .key

/-- How a byte stands to the open token. -/
def visit (m : Memory) (b : UInt8) : Stream.Move Memory Fault :=
  match m.phase with
  | .start =>
    if b = Byte.minus then .first (m.enter .dash)
    else if isKey b then .first (m.enter .keyRest)
    else .refuse .body
  | .dash => if b = Byte.minus then .inside (m.enter .boundary) else visitKey m b
  | .boundary =>
    if isBoundary b then .inside m
    else if b = Byte.cr then
      .behind fun token => (m.storeBoundary token).map (·.enter .headerLineFeed)
    else .refuse .boundaryStart
  | .keyRest => visitKey m b
  | .nextKey => if isKey b then .first (m.enter .keyRest) else .refuse .key
  | .value =>
    if b = Byte.ampersand then .outside ((m.storeValue "").enter .nextKey)
    else if isTerminator b then .outside ((m.storeValue "").enter .done)
    else if isText b then .first (m.enter .valueRest)
    else .refuse .value
  | .valueRest =>
    if isValue b then .inside m
    else if b = Byte.ampersand then
      .behind fun token => (m.storeToken token).map (·.enter .nextKey)
    else if isTerminator b then .behind fun token => (m.storeToken token).map (·.enter .done)
    else .refuse .value
  | .headerLineFeed => if b = Byte.lf then .outside (m.enter .header) else .refuse .lineFeed
  | .contentLineFeed => if b = Byte.lf then .outside (m.enter .contentStart) else .refuse .lineFeed
  | .header =>
    if b = Byte.cr then
      if m.part.name.isNone then .refuse .contentDisposition
      else .outside (m.enter .contentLineFeed)
    else if isHeader b then .first (m.enter .headerRest)
    else .refuse .partHeader
  | .headerRest =>
    if isHeader b then .inside m
    else if b = Byte.cr then
      .behind fun token => (m.storeHeader token).map (·.enter .headerLineFeed)
    else .refuse .partHeader
  | .contentStart => .first (m.enter (.content (advanceMatch m.delimiter 0 b)))
  | .content matched => visitContent m matched b
  | .afterBoundary =>
    if b = Byte.cr then .outside (m.enter .headerLineFeed)
    else if b = Byte.minus then .outside (m.enter .lastDash)
    else .refuse .boundaryEnd
  | .lastDash => if b = Byte.minus then .outside (m.enter .done) else .refuse .boundaryEnd
  | .done => .outside m

/-- Form bodies, read byte by byte. -/
def grammar : Stream.Grammar Memory Fault where
  isDone m := m.phase == .done
  move := visit
  tooLong := .tokenTooLong

/-- A form body that is being read. -/
structure Reader where
  session : Stream.Session Memory

/-- Why and where a byte does not fit. -/
abbrev Failure := Stream.Failure Fault

/-- The text of a failure. -/
def failureMessage (e : Failure) : String :=
  e.fault.message ++ " at byte " ++ toString e.offset

namespace Reader

/-- A reader before the first byte of a body. -/
def start (options : Stream.Options) : Reader := ⟨.start .start options⟩

/-- What has been read. -/
def form (r : Reader) : Form := r.session.memory.form

/-- Whether the body has been read to its end. -/
def isDone (r : Reader) : Bool := grammar.isDone r.session.memory

/-- How many bytes of the stream have been consumed. -/
def consumed (r : Reader) : Nat := r.session.consumed

/-- The boundary of a multipart form with the dashes in front of it, once it has
been read. -/
def boundary (r : Reader) : Option Bytes :=
  match r.session.memory.delimiter with
  | _ :: _ :: boundary => some boundary
  | _ => none

/-- Feeds a window of a buffer as the next chunk of the stream. -/
def feedWindow (r : Reader) (buffer : Bytes) (start stop : Nat) :
    Reader × Except Failure Bool :=
  let (session, answer) := grammar.feedWindow r.session buffer start stop
  (⟨session⟩, answer)

/-- Feeds the next chunk of the stream. -/
def feed (r : Reader) (chunk : Bytes) : Reader × Except Failure Bool :=
  r.feedWindow chunk 0 chunk.length

/-- Feeds several chunks, up to the first failure. -/
def feedAll (r : Reader) : List Bytes → Reader × Except Failure Bool
  | [] => (r, .ok r.isDone)
  | chunk :: chunks =>
    match r.feed chunk with
    | (next, .ok _) => feedAll next chunks
    | (next, .error failure) => (next, .error failure)

/-- The reader with another memory. -/
def withMemory (r : Reader) (memory : Memory) : Reader := ⟨{ r.session with memory }⟩

/-- Says that the body has ended. An encoded form may end here; a value that is
open is stored, and so is one that would have come. The token of such a value is
closed even if it cannot be decoded. -/
def finish (r : Reader) : Reader × Except Failure Form :=
  let m := r.session.memory
  let fail (r : Reader) (fault : Fault) : Reader × Except Failure Form :=
    (r, .error ⟨fault, r.consumed⟩)
  let succeed (r : Reader) (m : Memory) : Reader × Except Failure Form :=
    (r.withMemory (m.enter .done), .ok m.form)
  match m.phase with
  | .done | .start | .nextKey => succeed r m
  | .value => succeed r (m.storeValue "")
  | .valueRest =>
    match grammar.collect r.session with
    | .error fault => fail r fault
    | .ok token =>
      let r : Reader := ⟨{ r.session with token := none }⟩
      match m.storeToken token with
      | .error fault => fail r fault
      | .ok m => succeed r m
  | .contentStart | .content _ => fail r .contentBody
  | _ => fail r .incomplete

end Reader

end Form

end Octets
