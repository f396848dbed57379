import Octets.Cursor.Command

/-!
# Matchers

A matcher is a sequence of steps that is put together once and run many times.
A run reads the steps one after the other from some position of the input; it
reports how many bytes all of them together took, or that a step failed. A step
may be marked optional; where such a step fails, the run goes on as if it were
not there. A match need not reach the end of the input unless the last step
asks for it.

## Main definitions

* `Matcher.Step`, `Matcher.Step.run` — the steps and what they do to a cursor
* `Matcher`, `Matcher.push`, `Matcher.optional` — sequences of steps
* `Matcher.matchAt`, `Matcher.matchFront` — the length matched at a position, and
  at the front of the input
-/

namespace Octets

namespace Matcher

/-- One step of a matcher. -/
inductive Step where
  | literal (lit : Bytes)
  | before (lit : Bytes)
  | through (lit : Bytes)
  | byte (b : UInt8)
  | beforeByte (b : UInt8)
  /-- Any one byte. -/
  | any
  | ofClass (cls : UInt8 → Bool)
  | run (cls : UInt8 → Bool)
  | digits
  | entry (t : LeadTable)
  | beforeEntry (t : LeadTable)
  | throughEntry (t : LeadTable)
  | entries (t : LeadTable)
  /-- One byte that starts a sequence of the table. -/
  | lead (t : LeadTable)
  /-- One byte that starts no sequence of the table. -/
  | noLead (t : LeadTable)
  | suffix (endings : List Bytes)
  /-- The rest of the input, even if it is empty. -/
  | remainder
  /-- Nothing, but only at the end of the input. -/
  | finish
  | custom (f : Cursor → Bool × Cursor)

namespace Step

/-- What a step takes from the unread bytes, if it is one of those that look at
nothing else. -/
def scan? : Step → Option Scan
  | literal lit => some (Scan.literal lit)
  | before lit => some (Scan.before lit)
  | through lit => some (Scan.through lit)
  | byte b => some (Scan.byte (· == b))
  | beforeByte b => some (Scan.upTo (· == b))
  | any => some (Scan.byte fun _ => true)
  | ofClass cls => some (Scan.byte cls)
  | run cls => some (Scan.run cls)
  | digits => some (Scan.run Byte.isDigit)
  | entry t => some (Scan.entry t)
  | beforeEntry t => some (Scan.beforeEntry t)
  | throughEntry t => some (Scan.throughEntry t)
  | entries t => some (Scan.entries t)
  | lead t => some (Scan.byte t.hasLead)
  | noLead t => some (Scan.byte fun b => !t.hasLead b)
  | suffix endings => some fun bytes => (Scan.suffix? endings bytes).map fun _ => bytes.length
  | remainder | finish | custom _ => none

/-- A step on a cursor: whether it succeeded, and the cursor after it. The steps
that deal with the end of the input ask where the window ends, also when a custom
step has left the cursor behind it. -/
def apply (step : Step) (c : Cursor) : Bool × Cursor :=
  match step with
  | remainder => (true, c.jumpToEnd)
  | finish => (c.atEnd, c)
  | custom f => f c
  | step =>
    match step.scan? with
    | some scan => c.accept scan
    | none => (false, c)

/-- The readable form of a step. -/
def describe : Step → String
  | literal lit => "Bytes(" ++ Quoted.ofBytes lit ++ ")"
  | before lit => "UntilBytes(" ++ Quoted.ofBytes lit ++ ")"
  | through lit => "UntilIncludingBytes(" ++ Quoted.ofBytes lit ++ ")"
  | byte b => "One(" ++ Quoted.ofByte b ++ ")"
  | beforeByte b => "UntilOne(" ++ Quoted.ofByte b ++ ")"
  | any => "Next"
  | ofClass _ => "Class(..)"
  | run _ => "While(..)"
  | digits => "Digits"
  | entry t => "FromTable(" ++ t.describe ++ ")"
  | beforeEntry t => "UntilFromTable(" ++ t.describe ++ ")"
  | throughEntry t => "UntilIncludingFromTable(" ++ t.describe ++ ")"
  | entries t => "WhileFromTable(" ++ t.describe ++ ")"
  | lead t => "OneFromTable(" ++ t.describe ++ ")"
  | noLead t => "OneNotFromTable(" ++ t.describe ++ ")"
  | suffix endings => "ListAtEnd(" ++ Quoted.list (endings.map Quoted.ofBytes) ++ ")"
  | remainder => "SkipToEnd"
  | finish => "End"
  | custom _ => "Custom(..)"

end Step

/-- A step, and whether a run may go on without it. -/
structure Entry where
  step : Step
  isOptional : Bool

/-- One entry on a cursor; `none` when a step that must succeed fails. -/
def Entry.apply (entry : Entry) (c : Cursor) : Option Cursor :=
  match entry.step.apply c with
  | (true, after) => some after
  | (false, _) => if entry.isOptional then some c else none

end Matcher

/-- A sequence of steps. -/
structure Matcher where
  entries : List Matcher.Entry

namespace Matcher

/-- The matcher without steps, which matches zero bytes anywhere. -/
def empty : Matcher := ⟨[]⟩

/-- One more step. -/
def push (m : Matcher) (step : Step) : Matcher := ⟨m.entries ++ [⟨step, false⟩]⟩

/-- The steps of one matcher behind those of another. -/
def append (m n : Matcher) : Matcher := ⟨m.entries ++ n.entries⟩

/-- The entries with the last one marked optional. -/
def markLast : List Entry → List Entry
  | [] => []
  | [last] => [{ last with isOptional := true }]
  | first :: second :: others => first :: markLast (second :: others)

/-- Marks the last step optional. -/
def optional (m : Matcher) : Matcher := ⟨markLast m.entries⟩

/-- The steps, in order. -/
def steps (m : Matcher) : List Step := m.entries.map Entry.step

/-- How many steps there are. -/
def size (m : Matcher) : Nat := m.entries.length

/-- All entries on a cursor, one after the other. -/
def applyAll : List Entry → Cursor → Option Cursor
  | [], c => some c
  | entry :: entries, c => (entry.apply c).bind (applyAll entries)

/-- The length matched at a position of the input. -/
def matchAt (m : Matcher) (input : Bytes) (start : Nat) : Option Nat :=
  if input.length < start then none
  else
    (applyAll m.entries (Cursor.within input start input.length)).map fun c => c.pos - start

/-- The length matched at the front of the input. -/
def matchFront (m : Matcher) (input : Bytes) : Option Nat := m.matchAt input 0

theorem applyAll_append (first second : List Entry) (c : Cursor) :
    applyAll (first ++ second) c = (applyAll first c).bind (applyAll second) := by
  induction first generalizing c with
  | nil => rfl
  | cons entry entries ih =>
    cases reached : entry.apply c <;> simp [applyAll, reached, ih]

end Matcher

end Octets
