import Octets.Cursor

/-!
# Primitives

The reading primitives of a cursor as data. Each is a scan together with what it
reports: one that stands for a fixed test reports whether it applied, one that
stands for a single byte reports the byte, one that chooses among endings
reports which it chose, and every other reports how many bytes it took. So all
of them are all or nothing, and none sees a byte outside the unread window.

## Main definitions

* `Primitive`, `Primitive.scan` — the primitives and what they take
* `Reply`, `Reply.failed` — what an operation reports, and which reports count
  as failures
* `Primitive.apply` — a primitive on a cursor

## Main results

* `Primitive.failed_apply` — a report is a failure exactly when the scan did not
  apply
-/

namespace Octets

/-- The reading primitives. -/
inductive Primitive where
  /-- One byte of a class; reports the byte. -/
  | byte (cls : UInt8 → Bool)
  /-- One byte of a class; reports whether it was there. -/
  | test (cls : UInt8 → Bool)
  | literal (lit : Bytes)
  | either (a b : Bytes)
  | keyword (lit : Bytes)
  | run (cls : UInt8 → Bool)
  | upTo (cls : UInt8 → Bool)
  | upToUnescaped (cls : UInt8 → Bool)
  | before (lit : Bytes)
  | through (lit : Bytes)
  | beforeUnescaped (lit : Bytes)
  | quoted (quote : UInt8)
  | quotedEscaped (quote : UInt8)
  | entry (t : LeadTable)
  | beforeEntry (t : LeadTable)
  | throughEntry (t : LeadTable)
  | entries (t : LeadTable)
  | keywordEntry (t : LeadTable)
  /-- All unread bytes, if they have one of several endings; reports which. -/
  | suffix (endings : List Bytes)

/-- What an operation on a cursor reports. -/
inductive Reply where
  | flag (value : Bool)
  | byte (value : Option UInt8)
  | count (value : Option Nat)
  | bytes (value : Bytes)
  | text (value : Option String)
  | jump (value : Jump)
  /-- Whether an attempt succeeded, with the report of each operation it ran and
  the cursor after it. -/
  | attempt (succeeded : Bool) (log : List (Reply × Cursor))
  /-- How far a lookahead moved, with the report of each operation it ran and the
  copy after it. -/
  | lookahead (distance : Option Nat) (log : List (Reply × Cursor))

/-- The reports that end an attempt: nothing found, a test that did not hold, a
byte that stands only behind the window, a speculation that failed. -/
def Reply.failed : Reply → Bool
  | flag value => !value
  | byte value => value.isNone
  | count value => value.isNone
  | bytes _ => false
  | text value => value.isNone
  | jump (.moved _) => false
  | jump _ => true
  | attempt succeeded _ => !succeeded
  | lookahead distance _ => distance.isNone

namespace Primitive

/-- How many of the unread bytes a primitive takes. -/
def scan : Primitive → Scan
  | byte cls => Scan.byte cls
  | test cls => Scan.byte cls
  | literal lit => Scan.literal lit
  | either a b => Scan.either a b
  | keyword lit => Scan.keyword lit
  | run cls => Scan.run cls
  | upTo cls => Scan.upTo cls
  | upToUnescaped cls => Scan.upToUnescaped cls
  | before lit => Scan.before lit
  | through lit => Scan.through lit
  | beforeUnescaped lit => Scan.beforeUnescaped lit
  | quoted quote => Scan.quoted quote
  | quotedEscaped quote => Scan.quotedEscaped quote
  | entry t => Scan.entry t
  | beforeEntry t => Scan.beforeEntry t
  | throughEntry t => Scan.throughEntry t
  | entries t => Scan.entries t
  | keywordEntry t => Scan.keywordEntry t
  | suffix endings => fun bytes => (Scan.suffix? endings bytes).map fun _ => bytes.length

/-- What a primitive reports, given the unread bytes before it and what it took. -/
def report (p : Primitive) (unread : Bytes) (taken : Option Nat) : Reply :=
  match p with
  | byte _ => .byte (taken.bind fun _ => unread.head?)
  | test _ | literal _ | either _ _ | keyword _ => .flag taken.isSome
  | suffix endings => .count (Scan.suffix? endings unread)
  | _ => .count taken

/-- A primitive on a cursor. -/
def apply (p : Primitive) (c : Cursor) : Reply × Cursor :=
  let (taken, after) := c.take p.scan
  (p.report c.rest taken, after)

/-- A report is a failure exactly when the scan did not apply. -/
theorem failed_apply (p : Primitive) (c : Cursor) :
    (p.apply c).1.failed = (p.scan c.rest).isNone := by
  cases taken : p.scan c.rest with
  | none =>
    have same : p.apply c = (p.report c.rest none, c) := by
      simp [apply, Cursor.take_eq_of_none taken]
    cases p <;> simp_all [report, Reply.failed, scan]
  | some n =>
    have same : p.apply c = (p.report c.rest (some n), c.advance n) := by
      simp [apply, Cursor.take_eq_of_some taken]
    cases p with
    | byte cls =>
      cases unread : c.rest <;> simp_all [report, Reply.failed, scan, Scan.byte]
    | suffix endings =>
      obtain ⟨_, found, _⟩ := Option.map_eq_some_iff.mp taken
      simp [same, report, Reply.failed, found]
    | _ => simp [same, report, Reply.failed]

end Primitive

end Octets
