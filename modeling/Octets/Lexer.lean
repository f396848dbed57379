import Octets.Cursor

/-!
# Line lexers

A lexer cuts its input into lines and each line into classified runs of bytes,
its *lexemes*. What a run is, and of which kind, is up to a *tokenizer*: a state
machine whose step reads at a cursor over the rest of the line and either names
the kind of what it read or refuses. A carriage return directly in front of a
line feed belongs to the line's terminator, which is a lexeme of its own if the
tokenizer has a kind for it.

At every run three states get their turn. The *space* state comes first; it must
take at least one byte, and it never becomes the active state. Then the active
state steps, and when it refuses, the *fallback* state becomes active and steps.
A run of zero bytes is no lexeme, but the change of state that came with it
stays; without such a change nothing would ever happen again, so the lexer stops
with an error. It also stops when all states refuse. The first error is the last
item.

A tokenizer whose empty runs keep changing the state can go on forever without
an item, so whatever runs a lexer is given a number of steps.

## Main definitions

* `Tokenizer`, `Transition` — the state machine and what one step of it does
* `Lexeme`, `LexError` — the items of a lexer, `LexError.message`
* `Lexer`, `Lexer.start`, `Lexer.advance` — a lexer, and one step of it
* `Lexer.next`, `Lexer.items` — the next item, and all items, within a number of
  steps
* `Lexer.kinds`, `Lexer.texts` — the kinds and the texts of the lexemes, with the
  error that ended them
-/

namespace Octets

/-- What a step of a tokenizer does: the kind of what it read, or a refusal, and
what it leaves behind. -/
structure Transition (μ σ κ : Type) where
  kind : Option κ
  memory : μ
  state : σ
  cursor : Cursor

/-- A state machine that classifies runs of bytes. Beside the active state, which
the lexer holds, it may have a memory of its own. -/
structure Tokenizer (μ σ κ : Type) where
  /-- The state at the start of the input, and of every line if the lexer says
  so. -/
  initial : μ → σ
  /-- The state that is tried first at every run. -/
  space : μ → Option σ := fun _ => none
  /-- The state that takes over when the active one refuses. -/
  fallback : μ → Option σ := fun _ => none
  /-- The kind of a line terminator. -/
  newline : μ → Option κ := fun _ => none
  step : μ → σ → Cursor → Transition μ σ κ

namespace Tokenizer

variable {μ σ κ : Type}

/-- The active state's step, and the fallback state's if it refuses. -/
def classifyActive (t : Tokenizer μ σ κ) (memory : μ) (state : σ) (c : Cursor) :
    Transition μ σ κ :=
  let active := t.step memory state c
  if active.kind.isSome then active
  else
    let cursor := active.cursor.seek c.pos
    match t.fallback active.memory with
    | none => { active with cursor }
    | some fallback => t.step active.memory fallback cursor

/-- The run at a cursor: the space state's, if it takes any bytes, or else that
of the active or the fallback state. -/
def classify (t : Tokenizer μ σ κ) (memory : μ) (state : σ) (c : Cursor) :
    Transition μ σ κ :=
  match t.space memory with
  | none => t.classifyActive memory state c
  | some space =>
    let spaced := t.step memory space c
    if spaced.kind.isSome && c.pos < spaced.cursor.pos then { spaced with state }
    else t.classifyActive spaced.memory state (spaced.cursor.seek c.pos)

end Tokenizer

/-- A classified run of the input: the bytes from `start` up to `stop`. A line
terminator belongs to the line that it ends. -/
structure Lexeme (κ : Type) where
  kind : κ
  start : Nat
  stop : Nat
  line : Nat
  deriving DecidableEq, Repr

/-- The bytes of a lexeme. -/
def Lexeme.bytes {κ : Type} (lexeme : Lexeme κ) (input : Bytes) : Bytes :=
  input.slice lexeme.start lexeme.stop

/-- Why a lexer stopped. -/
inductive LexFault (σ : Type) where
  /-- All states refused the byte; the named state was active at the end. -/
  | unexpected (state : σ) (byte : UInt8)
  /-- A run of zero bytes left the state as it was. -/
  | stalled (state : σ)
  /-- A lexeme that was to be read as text is not UTF-8. -/
  | notText
  deriving DecidableEq, Repr

/-- Why and where a lexer stopped. -/
structure LexError (σ : Type) where
  fault : LexFault σ
  offset : Nat
  line : Nat
  deriving DecidableEq, Repr

/-- The text of a fault, given the names of the states. -/
def LexFault.message {σ : Type} (name : σ → String) : LexFault σ → String
  | unexpected state byte =>
    "unexpected byte 0x" ++ Quoted.hexByte byte ++ " in state " ++ name state
  | stalled state => "no progress in state " ++ name state
  | notText => "token is not valid utf-8"

/-- The text of an error, given the names of the states. -/
def LexError.message {σ : Type} (name : σ → String) (e : LexError σ) : String :=
  e.fault.message name ++ " at " ++ toString e.line ++ ":" ++ toString e.offset

/-- What a lexer yields. -/
abbrev LexItem (σ κ : Type) := Except (LexError σ) (Lexeme κ)

namespace Lexer

/-- How a lexer treats the ends of lines. -/
structure Options where
  /-- Whether line terminators are lexemes. -/
  emitNewlines : Bool := true
  /-- Whether every line starts in the initial state. -/
  resetPerLine : Bool := true
  deriving DecidableEq, Repr

/-- Where the line that begins at `start` ends, and where the next one begins. -/
def lineBounds (input : Bytes) (start : Nat) : Nat × Nat :=
  match (input.drop start).idxOf? Byte.lf with
  | none => (input.length, input.length)
  | some n =>
    let lf := start + n
    if 0 < n ∧ input[lf - 1]? = some Byte.cr then (lf - 1, lf + 1) else (lf, lf + 1)

end Lexer

/-- A lexer at work on an input. -/
structure Lexer (μ σ κ : Type) where
  tokenizer : Tokenizer μ σ κ
  options : Lexer.Options
  memory : μ
  /-- The active state. -/
  state : σ
  /-- Over the rest of the line. -/
  cursor : Cursor
  /-- The number of the line; the first is 1. -/
  line : Nat
  /-- Where the next line begins. -/
  nextLine : Nat
  /-- Where the terminator of the line begins and ends. -/
  terminator : Option (Nat × Nat)
  finished : Bool

namespace Lexer

variable {μ σ κ : Type}

/-- The input. -/
def input (l : Lexer μ σ κ) : Bytes := l.cursor.bytes

/-- Enters the line that begins at `start`. -/
def openLine (l : Lexer μ σ κ) (start : Nat) : Lexer μ σ κ :=
  let (stop, next) := lineBounds l.input start
  { l with
    cursor := l.cursor.moveWindow start stop
    line := l.line + 1
    nextLine := next
    terminator := if stop < next then some (stop, next) else none }

/-- A lexer at the first line of an input. There is nothing to do on an empty
one. -/
def start (tokenizer : Tokenizer μ σ κ) (memory : μ) (options : Options) (input : Bytes) :
    Lexer μ σ κ :=
  let l : Lexer μ σ κ :=
    { tokenizer, options, memory
      state := tokenizer.initial memory
      cursor := Cursor.ofBytes input
      line := 0
      nextLine := 0
      terminator := none
      finished := input.isEmpty }
  if input.isEmpty then l else l.openLine 0

/-- Leaves a line that is used up: its terminator is yielded, and the next line
is entered if there is one. -/
def closeLine (l : Lexer μ σ κ) : Option (LexItem σ κ) × Lexer μ σ κ :=
  let next :=
    if l.nextLine < l.input.length then
      { l with state := if l.options.resetPerLine then l.tokenizer.initial l.memory else l.state }
        |>.openLine l.nextLine
    else { l with finished := true, terminator := none }
  match l.options.emitNewlines, l.terminator, l.tokenizer.newline l.memory with
  | true, some (start, stop), some kind => (some (.ok ⟨kind, start, stop, l.line⟩), next)
  | _, _, _ => (none, next)

/-- Classifies the next run of a line. -/
def readRun [DecidableEq σ] (l : Lexer μ σ κ) : Option (LexItem σ κ) × Lexer μ σ κ :=
  let c := l.cursor.beginToken
  let run := l.tokenizer.classify l.memory l.state c
  let next := { l with memory := run.memory, state := run.state, cursor := run.cursor }
  match run.kind with
  | none =>
    let byte := next.input[c.pos]?.getD Byte.nul
    (some (.error ⟨.unexpected run.state byte, c.pos, l.line⟩), { next with finished := true })
  | some kind =>
    if c.pos < run.cursor.pos then (some (.ok ⟨kind, c.pos, run.cursor.pos, l.line⟩), next)
    else if run.state = l.state then
      (some (.error ⟨.stalled run.state, c.pos, l.line⟩), { next with finished := true })
    else (none, next)

/-- One step of a lexer, with the item that it yields, if it yields one. -/
def advance [DecidableEq σ] (l : Lexer μ σ κ) : Option (LexItem σ κ) × Lexer μ σ κ :=
  if l.finished then (none, l)
  else if l.cursor.atEnd then l.closeLine
  else l.readRun

/-- The next item, if the lexer comes to one within the given number of steps. -/
def next [DecidableEq σ] : Nat → Lexer μ σ κ → Option (LexItem σ κ) × Lexer μ σ κ
  | 0, l => (none, l)
  | steps + 1, l =>
    if l.finished then (none, l)
    else
      match l.advance with
      | (some item, after) => (some item, after)
      | (none, after) => next steps after

/-- The items that the given number of steps yields, and the lexer after them. -/
def items [DecidableEq σ] : Nat → Lexer μ σ κ → List (LexItem σ κ) × Lexer μ σ κ
  | 0, l => ([], l)
  | steps + 1, l =>
    if l.finished then ([], l)
    else
      let (item, after) := l.advance
      let (more, last) := items steps after
      (item.toList ++ more, last)

/-- The kinds of the lexemes before the first error, and that error. -/
def kindsOf : List (LexItem σ κ) → List κ × Option (LexError σ)
  | [] => ([], none)
  | .error e :: _ => ([], some e)
  | .ok lexeme :: items =>
    let (kinds, error) := kindsOf items
    (lexeme.kind :: kinds, error)

/-- The kinds and texts of the lexemes before the first error, and that error; a
lexeme that is not UTF-8 is one. -/
def textsOf (input : Bytes) : List (LexItem σ κ) → List (κ × String) × Option (LexError σ)
  | [] => ([], none)
  | .error e :: _ => ([], some e)
  | .ok lexeme :: items =>
    match Utf8.decode? (lexeme.bytes input) with
    | none => ([], some ⟨.notText, lexeme.start, lexeme.line⟩)
    | some text =>
      let (texts, error) := textsOf input items
      ((lexeme.kind, text) :: texts, error)

/-- The kinds of the lexemes, within a number of steps. -/
def kinds [DecidableEq σ] (steps : Nat) (l : Lexer μ σ κ) : List κ × Option (LexError σ) :=
  kindsOf (l.items steps).1

/-- The kinds and texts of the lexemes, within a number of steps. -/
def texts [DecidableEq σ] (steps : Nat) (l : Lexer μ σ κ) :
    List (κ × String) × Option (LexError σ) :=
  textsOf l.input (l.items steps).1

/-- The readable form of a lexer, given the names of the states. -/
def describe (name : σ → String) (l : Lexer μ σ κ) : String :=
  "Lexer \x7b state: " ++ name l.state ++ ", line: " ++ toString l.line ++ ", position: " ++
    toString l.cursor.pos ++ ", finished: " ++ (if l.finished then "true" else "false") ++
    ", .. \x7d"

/-- A finished lexer yields nothing more. -/
theorem next_of_finished [DecidableEq σ] {l : Lexer μ σ κ} (finished : l.finished = true)
    (steps : Nat) : l.next steps = (none, l) := by
  cases steps <;> simp [next, finished]

theorem items_of_finished [DecidableEq σ] {l : Lexer μ σ κ} (finished : l.finished = true)
    (steps : Nat) : l.items steps = ([], l) := by
  cases steps <;> simp [items, finished]

end Lexer

end Octets
