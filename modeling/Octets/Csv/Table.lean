import Octets.Csv.Field
import Octets.Csv.Reader

/-!
# Tables

A table of text fields with a serial id: the number that the next inserted row
gets as its first field. The first column holds the ids. Its text is a line with
the serial id, then the header as a record, then the rows as records.

Rows are found by the first row whose first field is the id. Nothing keeps a
caller from giving one id to two rows, by updating an id that the serial id has
yet to reach or by writing into the first column.

## Main definitions

* `Csv.Table`, `Table.ofColumns` — a table without rows
* `Table.text`, `Table.bytes`, `Table.parse` — a table as text, and back
* `Table.insert`, `Table.put`, `Table.erase?`, `Table.setField?`,
  `Table.get?` — the rows by their ids
* `Csv.Fault`, `Fault.message` — why bytes are no table, or a row does not fit
-/

namespace Octets.Csv

/-- Why bytes are no table, or a row does not fit into one. -/
inductive Fault where
  | serialId
  | newLine
  | emptyHeader
  | rowWidth (line expected found : Nat)
  | unterminatedQuote (line : Nat)
  | insertWidth (expected found : Nat)
  | putWidth (expected found : Nat)
  /-- A byte stands behind a field that does not end it. -/
  | strayByte
  deriving DecidableEq, Repr

/-- The text of a fault. -/
def Fault.message : Fault → String
  | serialId => "missing serial id"
  | newLine => "missing new line"
  | emptyHeader => "empty header"
  | rowWidth line expected found =>
    "line " ++ toString line ++ ": expected " ++ toString expected ++ " columns, found " ++
      toString found
  | unterminatedQuote line => "line " ++ toString line ++ ": unterminated quoted field"
  | insertWidth expected found =>
    "insert expects " ++ toString expected ++ " columns, got " ++ toString found
  | putWidth expected found =>
    "update expects " ++ toString expected ++ " columns, got " ++ toString found
  | strayByte => "unreachable csv state"

/-- A table: the id of the next row, the names of the columns, and the rows. -/
structure Table where
  serialId : UInt64
  header : List String
  rows : List (List String)
  deriving DecidableEq, Repr

namespace Table

/-- A table without rows, whose columns are the ids and the given ones. -/
def ofColumns (columns : List String) : Table := ⟨0, "id" :: columns, []⟩

/-- The number that decimal digits write. -/
def decimal (digits : Bytes) : Nat :=
  digits.foldl (fun n b => n * 10 + (b.toNat - 0x30)) 0

/-- The fault of a reader that stopped in the given input. -/
def faultAt (input : Bytes) : ReadFault → Fault
  | .openQuote field => .unterminatedQuote (input.lineAt (input.length - field.length))
  | .strayByte _ => .strayByte

/-- The rows that the rest of an input holds, all as wide as the header. -/
def readRows (input : Bytes) (width : Nat) (rest : Bytes) :
    Except Fault (List (List String)) :=
  match _next : skipBlankLines rest with
  | [] => .ok []
  | b :: more =>
    match _read : readRecord (b :: more) with
    | .error fault => .error (faultAt input fault)
    | .ok (row, behind) =>
      if row.length ≠ width then
        let line := input.lineAt (input.length - (more.length + 1))
        .error (.rowWidth line width row.length)
      else
        match readRows input width behind with
        | .error fault => .error fault
        | .ok rows => .ok (row :: rows)
termination_by rest.length
decreasing_by
  have skipped : (b :: more).length ≤ rest.length := _next ▸ (List.dropWhile_suffix _).length_le
  have := length_readRecord_lt _read (List.cons_ne_nil _ _)
  omega

/-- The table that some bytes are the text of. -/
def parse (input : Bytes) : Except Fault Table :=
  let digits := input.takeWhile Byte.isDigit
  let serialId := decimal digits
  if digits.isEmpty ∨ UInt64.size ≤ serialId then .error .serialId
  else
    match input.drop digits.length with
    | [] => .error .newLine
    | b :: rest =>
      if b ≠ Byte.lf then .error .newLine
      else
        match skipBlankLines rest with
        | [] => .error .emptyHeader
        | b :: rest =>
          match readRecord (b :: rest) with
          | .error fault => .error (faultAt input fault)
          | .ok (header, behind) =>
            match readRows input header.length behind with
            | .error fault => .error fault
            | .ok rows => .ok ⟨UInt64.ofNat serialId, header, rows⟩

/-- The text of an id. -/
def idText (id : UInt64) : String := toString id.toNat

/-- The text of a table. -/
def text (t : Table) : String :=
  idText t.serialId ++ "\n" ++ String.join ((t.header :: t.rows).map writeRecord)

/-- The bytes of the text of a table. -/
def bytes (t : Table) : Bytes := Bytes.ofText t.text

/-- A row whose first field is the id. -/
def hasId (id : String) (row : List String) : Bool := row.head? == some id

/-- Where the first row of an id stands. -/
def find? (t : Table) (id : String) : Option Nat := t.rows.findIdx? (hasId id)

/-- Appends a row of all columns but the first under the next id, which is the
answer. -/
def insert (t : Table) (row : List String) : Except Fault (UInt64 × Table) :=
  if row.length + 1 ≠ t.header.length then
    .error (.insertWidth (t.header.length - 1) row.length)
  else
    .ok (t.serialId,
      { t with
        rows := t.rows ++ [idText t.serialId :: row]
        serialId := t.serialId + 1 })

/-- Replaces all columns but the first in the first row of an id. If there is no
such row, one is appended; the serial id stays as it is. -/
def put (t : Table) (id : String) (row : List String) : Except Fault Table :=
  if row.length + 1 ≠ t.header.length then
    .error (.putWidth (t.header.length - 1) row.length)
  else
    match t.find? id with
    | some i => .ok { t with rows := t.rows.set i (id :: row) }
    | none => .ok { t with rows := t.rows ++ [id :: row] }

/-- Takes out the first row of an id. -/
def erase? (t : Table) (id : String) : Option (List String × Table) := do
  let i ← t.find? id
  let row ← t.rows[i]?
  some (row, { t with rows := t.rows.eraseIdx i })

/-- Sets one column in the first row of an id. -/
def setField? (t : Table) (id : String) (column : Nat) (value : String) : Option Table := do
  let i ← t.find? id
  let row ← t.rows[i]?
  if column < row.length then some { t with rows := t.rows.set i (row.set column value) }
  else none

/-- The first row of an id. -/
def get? (t : Table) (id : String) : Option (List String) := do
  let i ← t.find? id
  t.rows[i]?

end Table

end Octets.Csv
