import Octets.Csv.Table

/-!
# Stores

A place where the bytes of one table are kept as a whole. It may be empty, and
its surroundings may be missing, in which case nothing can be written there
either.

## Main definitions

* `Csv.Store`, `Store.read`, `Store.write` — the bytes of a place
* `Table.load`, `Table.save` — the table of a place
-/

namespace Octets.Csv

/-- A place for the bytes of one table. -/
structure Store where
  /-- Whether the place can be written to. -/
  writable : Bool
  contents : Option Bytes
  deriving DecidableEq, Repr

/-- Why a table cannot be loaded or saved. -/
inductive StoreFault where
  | notFound
  | table (fault : Fault)
  deriving DecidableEq, Repr

namespace Store

/-- An empty place. -/
def vacant : Store := ⟨true, none⟩

/-- A place whose surroundings are missing. -/
def nowhere : Store := ⟨false, none⟩

/-- A place that holds some bytes. -/
def holding (bytes : Bytes) : Store := ⟨true, some bytes⟩

/-- All bytes of a place. -/
def read (s : Store) : Except StoreFault Bytes :=
  match s.contents with
  | some bytes => .ok bytes
  | none => .error .notFound

/-- Puts other bytes in the place of all that were there. -/
def write (s : Store) (bytes : Bytes) : Except StoreFault Store :=
  if s.writable then .ok { s with contents := some bytes } else .error .notFound

theorem read_write {s after : Store} {bytes : Bytes} (written : s.write bytes = .ok after) :
    after.read = .ok bytes := by
  unfold write at written
  split at written
  · cases written
    rfl
  · simp at written

end Store

namespace Table

/-- The table whose bytes a place holds. -/
def load (s : Store) : Except StoreFault Table :=
  match s.read with
  | .error fault => .error fault
  | .ok bytes =>
    match parse bytes with
    | .error fault => .error (.table fault)
    | .ok t => .ok t

/-- Writes a table to a place. -/
def save (t : Table) (s : Store) : Except StoreFault Store := s.write t.bytes

end Table

end Octets.Csv
