import Octets.Scan
import Octets.Text.Quoted

/-!
# Lead tables

A lead table holds byte sequences grouped by their first byte, their *lead*, so
that a scanner looks at one group instead of all sequences. Within a group the
sequences keep the order in which they came, and the first that matches wins. A
group may also stand for its lead alone; it is then the empty list, and a table
of such groups is a class of bytes.

## Main definitions

* `LeadTable` — the group of each lead, if it has one
* `LeadTable.insert`, `LeadTable.insertLead` — one more sequence, one more lead
* `LeadTable.ofSequences`, `LeadTable.ofClass`, `LeadTable.complement`
* `LeadTable.matchLengths`, `LeadTable.first` — the lengths of the sequences at the
  front of some bytes, and the first of them
* `Scan.entry`, `Scan.beforeEntry`, `Scan.throughEntry`, `Scan.entries`,
  `Scan.keywordEntry` — scans for the sequences of a table
-/

namespace Octets

/-- Byte sequences grouped by their first byte. A lead without a group starts no
sequence; the empty group stands for its lead alone. -/
structure LeadTable where
  group : UInt8 → Option (List Bytes)

namespace LeadTable

@[ext] theorem ext {t u : LeadTable} (same : ∀ b, t.group b = u.group b) : t = u := by
  cases t
  cases u
  exact congrArg LeadTable.mk (funext same)

/-- Two tables are the same when they have the same group at each of the 256
leads. -/
instance : DecidableEq LeadTable := fun t u =>
  decidable_of_iff ((Byte.all.all fun b => decide (t.group b = u.group b)) = true)
    ⟨fun same => ext fun b => of_decide_eq_true (List.all_eq_true.mp same b (Byte.mem_all b)),
      fun same => List.all_eq_true.mpr fun _ _ => decide_eq_true (same ▸ rfl)⟩

/-- The table without sequences. -/
def empty : LeadTable := ⟨fun _ => none⟩

/-- The table with another group at one lead. -/
def setGroup (t : LeadTable) (lead : UInt8) (group : List Bytes) : LeadTable :=
  ⟨fun b => if b = lead then some group else t.group b⟩

/-- The group of a lead with one more sequence. An empty group is first spelled
out as its lead, which it then no longer stands for by being empty. -/
def extended (lead : UInt8) (sequence : Bytes) : Option (List Bytes) → List Bytes
  | none => [sequence]
  | some [] => [[lead], sequence]
  | some (first :: others) => first :: others ++ [sequence]

/-- One more sequence, behind those of the same lead. The empty sequence has no
lead and changes nothing. -/
def insert (t : LeadTable) (sequence : Bytes) : LeadTable :=
  match sequence with
  | [] => t
  | lead :: _ => t.setGroup lead (extended lead sequence (t.group lead))

/-- One more lead that matches alone. -/
def insertLead (t : LeadTable) (lead : UInt8) : LeadTable :=
  match t.group lead with
  | none => t.setGroup lead []
  | some [] => t
  | some group => t.setGroup lead (group ++ [[lead]])

/-- The table of the given sequences. -/
def ofSequences (sequences : List Bytes) : LeadTable := sequences.foldl insert empty

/-- The table of the given bytes, each matching alone. -/
def ofClass (bytes : Bytes) : LeadTable := bytes.foldl insertLead empty

/-- A byte that starts a sequence of the table. -/
def hasLead (t : LeadTable) (b : UInt8) : Bool := (t.group b).isSome

/-- The class of all bytes that start no sequence of the table. -/
def complement (t : LeadTable) : LeadTable :=
  ofClass (Byte.all.filter fun b => !t.hasLead b)

/-- A table without sequences. -/
def isEmpty (t : LeadTable) : Bool := Byte.all.all fun b => !t.hasLead b

/-- The sequences that a group stands for, in order. -/
def spelled (lead : UInt8) : Option (List Bytes) → List Bytes
  | none => []
  | some [] => [[lead]]
  | some group => group

/-- The lengths of the sequences at the front of some bytes, in the order of
their group. -/
def matchLengths (t : LeadTable) : Bytes → List Nat
  | [] => []
  | b :: rest =>
    ((spelled b (t.group b)).filter fun sequence => sequence.isPrefixOf (b :: rest)).map
      List.length

/-- The length of the first sequence at the front of some bytes. -/
def first (t : LeadTable) (bytes : Bytes) : Option Nat := (t.matchLengths bytes).head?

/-- The readable form of a table: each lead with its group, in ascending order. -/
def describe (t : LeadTable) : String :=
  let entry (b : UInt8) : Option String :=
    (t.group b).map fun group =>
      Quoted.ofBytes [b] ++ ": " ++ Quoted.list (group.map Quoted.ofBytes)
  "\x7b" ++ String.intercalate ", " (Byte.all.filterMap entry) ++ "\x7d"

@[simp] theorem group_empty (b : UInt8) : empty.group b = none := rfl

theorem group_setGroup (t : LeadTable) (lead : UInt8) (group : List Bytes) (b : UInt8) :
    (t.setGroup lead group).group b = if b = lead then some group else t.group b := rfl

@[simp] theorem insert_nil (t : LeadTable) : t.insert [] = t := rfl

theorem spelled_extended (lead : UInt8) (sequence : Bytes) (group : Option (List Bytes)) :
    spelled lead (some (extended lead sequence group)) = spelled lead group ++ [sequence] := by
  match group with
  | none => rfl
  | some [] => rfl
  | some (_ :: _) => rfl

end LeadTable

namespace Scan

/-- The first sequence of the table that matches. -/
def entry (t : LeadTable) : Scan := fun bytes => (t.first bytes).bind nonzero

/-- Where a sequence of the table first matches. -/
def entryIndex (t : LeadTable) : Scan
  | [] => none
  | b :: rest =>
    if (t.first (b :: rest)).isSome then some 0 else (entryIndex t rest).map (· + 1)

/-- The bytes before the first match of a sequence of the table. -/
def beforeEntry (t : LeadTable) : Scan := fun bytes => (entryIndex t bytes).bind nonzero

/-- Where the first match of a sequence of the table ends. -/
def entryEnd (t : LeadTable) : Scan
  | [] => none
  | b :: rest =>
    match t.first (b :: rest) with
    | some n => some n
    | none => (entryEnd t rest).map (· + 1)

/-- The bytes up to and including the first match of a sequence of the table. -/
def throughEntry (t : LeadTable) : Scan := fun bytes => (entryEnd t bytes).bind nonzero

/-- The total length of the sequences read one after the other, each the first
of the table that matches. -/
def entriesLength (t : LeadTable) : Bytes → Nat
  | [] => 0
  | b :: rest =>
    match t.first (b :: rest) with
    | some (n + 1) => entriesLength t (rest.drop n) + (n + 1)
    | _ => 0
termination_by bytes => bytes.length
decreasing_by simp only [List.length_drop, List.length_cons]; omega

/-- A run of sequences of the table. Each round takes the first sequence that
matches, whatever its length. -/
def entries (t : LeadTable) : Scan := fun bytes => nonzero (entriesLength t bytes)

/-- The first sequence of the table that matches and that no byte of an
identifier follows. -/
def keywordEntry (t : LeadTable) : Scan := fun bytes =>
  ((t.matchLengths bytes).find? fun n => !beginsWithIdentifier (bytes.drop n)).bind nonzero

end Scan

end Octets
