import Octets.Bytes.Class
import Octets.Stream.Grammar
import Octets.Text.Utf8
import Std.Data.TreeMap

/-!
# Request heads

The head of an HTTP request: a request line of method, target and version, then
one line for each header field, then an empty line. Parts of a line are
separated by spaces, of which there may be any number; a line ends with a line
feed, or with a carriage return and a line feed. Text is UTF-8, read leniently.
Of several fields with one name the last one counts.

## Main definitions

* `Head` — what a request head says
* `Head.Fault`, `Fault.message` — why a byte does not fit
* `Head.grammar` — request heads as a grammar for streams
* `Head.Reader` — a request head that is being read; `Reader.feed`,
  `Reader.feedAll`, `Reader.feedWindow`
-/

namespace Octets

/-- What a request head says. -/
structure Head where
  method : String
  uri : String
  version : String
  fields : Std.TreeMap String String

namespace Head

/-- Nothing said yet. -/
def empty : Head := ⟨"", "", "", ∅⟩

/-- The value of a field. -/
def get? (head : Head) (key : String) : Option String := head.fields[key]?

/-- Why a byte does not fit. -/
inductive Fault where
  | method
  | uri
  | version
  | lineFeed
  | carriageReturn
  | key
  | colon
  | value
  | tokenTooLong (limit : Nat)
  deriving DecidableEq, Repr

/-- The text of a fault. -/
def Fault.message : Fault → String
  | method => "invalid method character"
  | uri => "invalid uri character"
  | version => "invalid http version"
  | lineFeed => "expected line feed"
  | carriageReturn => "expected carriage return"
  | key => "invalid header key character"
  | colon => "expected colon after header key"
  | value => "invalid header value character"
  | tokenTooLong limit => "token longer than " ++ toString limit ++ " bytes"

/-- Where in a head the next byte stands. -/
inductive Phase where
  | method
  | methodRest
  | uri
  | uriRest
  | version
  | versionRest
  /-- At the end of the request line, behind the spaces after the version. -/
  | lineEnd
  | lineFeed
  /-- At the start of a line after the first. -/
  | key
  | keyRest
  | colon
  | value
  | valueRest
  /-- Behind the carriage return of the empty line. -/
  | lastLineFeed
  | done
  deriving DecidableEq, Repr

/-- The phases inside a token. -/
def Phase.isInside : Phase → Bool
  | methodRest | uriRest | versionRest | keyRest | valueRest => true
  | _ => false

/-- What a reader of heads remembers: where it is, whether spaces may still come
before that, what it has read, and the name of the field whose value comes. -/
structure Memory where
  phase : Phase
  blanks : Bool
  head : Head
  key : String

namespace Memory

/-- Before the first byte. -/
def start : Memory := ⟨.method, false, .empty, ""⟩

/-- Goes on in another phase. -/
def enter (m : Memory) (phase : Phase) : Memory := { m with phase, blanks := false }

/-- Goes on in another phase, behind any number of spaces. -/
def enterBehindSpaces (m : Memory) (phase : Phase) : Memory := { m with phase, blanks := true }

/-- Remembers the value of the field. -/
def storeField (m : Memory) (value : Bytes) : Memory :=
  { m with
    head := { m.head with fields := m.head.fields.insert m.key (Utf8.decodeLossy value) }
    key := "" }

end Memory

/-- A byte of the target, of the version, and of the first byte of a value. -/
def isVisible (b : UInt8) : Bool := Byte.space < b

/-- A byte of a value. -/
def isText (b : UInt8) : Bool := Byte.space ≤ b

/-- A byte of a field name. -/
def isKey (b : UInt8) : Bool := isVisible b && b != Byte.colon

/-- How a byte that is no skipped space stands to the open token. -/
def visit (m : Memory) (b : UInt8) : Stream.Move Memory Fault :=
  match m.phase with
  | .method => if Byte.isUpper b then .first (m.enter .methodRest) else .refuse .method
  | .methodRest =>
    if Byte.isUpper b then .inside m
    else if b = Byte.space then
      .behind fun token => .ok <|
        { m with head := { m.head with method := Utf8.decodeLossy token } }.enterBehindSpaces .uri
    else .refuse .method
  | .uri => if isVisible b then .first (m.enter .uriRest) else .refuse .uri
  | .uriRest =>
    if isVisible b then .inside m
    else if b = Byte.space then
      .behind fun token => .ok <|
        { m with head := { m.head with uri := Utf8.decodeLossy token } }.enterBehindSpaces .version
    else .refuse .uri
  | .version => if b = Byte.capitalH then .first (m.enter .versionRest) else .refuse .version
  | .versionRest =>
    let store (token : Bytes) : Memory :=
      { m with head := { m.head with version := Utf8.decodeLossy token } }
    if isVisible b then .inside m
    else if b = Byte.space then .behind fun token => .ok ((store token).enterBehindSpaces .lineEnd)
    else if b = Byte.cr then .behind fun token => .ok ((store token).enter .lineFeed)
    else if b = Byte.lf then .behind fun token => .ok ((store token).enter .key)
    else .refuse .version
  | .lineEnd =>
    if b = Byte.cr then .outside (m.enter .lineFeed)
    else if b = Byte.lf then .outside (m.enter .key)
    else .refuse .carriageReturn
  | .lineFeed => if b = Byte.lf then .outside (m.enter .key) else .refuse .lineFeed
  | .key =>
    if Byte.isAlpha b then .first (m.enter .keyRest)
    else if b = Byte.lf then .outside (m.enter .done)
    else if b = Byte.cr then .outside (m.enter .lastLineFeed)
    else .refuse .key
  | .keyRest =>
    let store (token : Bytes) : Memory := { m with key := Utf8.decodeLossy token }
    if isKey b then .inside m
    else if b = Byte.colon then .behind fun token => .ok ((store token).enterBehindSpaces .value)
    else if b = Byte.space then .behind fun token => .ok ((store token).enterBehindSpaces .colon)
    else .refuse .key
  | .colon =>
    if b = Byte.colon then .outside (m.enterBehindSpaces .value) else .refuse .colon
  | .value => if isVisible b then .first (m.enter .valueRest) else .refuse .value
  | .valueRest =>
    if isText b then .inside m
    else if b = Byte.cr then .behind fun token => .ok ((m.storeField token).enter .lineFeed)
    else if b = Byte.lf then .behind fun token => .ok ((m.storeField token).enter .key)
    else .refuse .value
  | .lastLineFeed => if b = Byte.lf then .outside (m.enter .done) else .refuse .lineFeed
  | .done => .outside m

/-- Request heads, read byte by byte. -/
def grammar : Stream.Grammar Memory Fault where
  isDone m := m.phase == .done
  move m b :=
    if m.blanks && b == Byte.space then .outside m else visit { m with blanks := false } b
  tooLong := .tokenTooLong

/-- A request head that is being read. Once it is complete, `bodyIndex` is the
index of the first byte behind it in the buffer that completed it. -/
structure Reader where
  session : Stream.Session Memory
  bodyIndex : Option Nat

/-- Why and where a byte does not fit. -/
abbrev Failure := Stream.Failure Fault

/-- The text of a failure. -/
def failureMessage (e : Failure) : String :=
  e.fault.message ++ " at byte " ++ toString e.offset

namespace Reader

/-- A reader before the first byte of a head. -/
def start (options : Stream.Options) : Reader := ⟨.start .start options, none⟩

/-- What has been read. -/
def head (r : Reader) : Head := r.session.memory.head

/-- Whether the head is complete. -/
def isDone (r : Reader) : Bool := grammar.isDone r.session.memory

/-- How many bytes of the stream have been consumed; of a complete head, its
length. -/
def consumed (r : Reader) : Nat := r.session.consumed

/-- Where in the stream the body begins. -/
def bodyOffset (r : Reader) : Option Nat := if r.isDone then some r.consumed else none

/-- Feeds a window of a buffer as the next chunk of the stream. A complete head
takes nothing more. -/
def feedWindow (r : Reader) (buffer : Bytes) (start stop : Nat) :
    Reader × Except Failure Bool :=
  if r.isDone then (r, .ok true)
  else
    let (session, answer) := grammar.feedWindow r.session buffer start stop
    let bodyIndex :=
      match answer with
      | .ok true =>
        some (min start (min stop buffer.length) + (session.consumed - r.session.consumed))
      | _ => r.bodyIndex
    (⟨session, bodyIndex⟩, answer)

/-- Feeds the next chunk of the stream. -/
def feed (r : Reader) (chunk : Bytes) : Reader × Except Failure Bool :=
  r.feedWindow chunk 0 chunk.length

/-- Feeds several chunks, up to the first failure. -/
def feedAll (r : Reader) : List Bytes → Reader × Except Failure Bool
  | [] => (r, .ok r.isDone)
  | chunk :: chunks =>
    match r.feed chunk with
    | (next, .ok _) => feedAll next chunks
    | (next, .error failure) => (next, .error failure)

end Reader

end Head

end Octets
