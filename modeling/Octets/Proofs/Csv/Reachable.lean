import Octets.Csv.Table

/-!
# Tables that come of calls

A table is made of columns or parsed from bytes, and then edited. Whatever the calls
are, and whether or not they succeed, it has a header, and every row is as wide as that.

## Main definitions

* `Csv.Edit`, `Table.edit` — a call as data, and what it leaves of a table
* `Table.Reachable` — the tables that come of calls
* `Table.WellFormed` — a header, and rows as wide as that

## Main results

* `Table.wellFormed_of_parse`, `Table.WellFormed.edit` — how a table begins, and one call
* `Table.Reachable.wellFormed` — any number of calls
-/

namespace Octets.Csv

/-- A call that may change a table. To append a row is to insert it. -/
inductive Edit where
  | insert (row : List String)
  | put (id : String) (row : List String)
  | erase (id : String)
  | setField (id : String) (column : Nat) (value : String)
  deriving DecidableEq, Repr

namespace Table

variable {t : Table} {input : Bytes}

/-- What a call leaves of a table. One that fails leaves it as it is. -/
def edit (t : Table) : Edit → Table
  | .insert row =>
    match t.insert row with
    | .ok (_, after) => after
    | .error _ => t
  | .put id row =>
    match t.put id row with
    | .ok after => after
    | .error _ => t
  | .erase id =>
    match t.erase? id with
    | some (_, after) => after
    | none => t
  | .setField id column value => (t.setField? id column value).getD t

/-- Whether there is an id behind the one that a call would give away. -/
def HasIdFor (t : Table) : Edit → Prop
  | .insert _ => t.serialId.toNat + 1 < UInt64.size
  | _ => True

/-- The tables that come of some calls on some others, as long as there are ids left. -/
inductive Reachable (origin : Table → Prop) (allowed : Edit → Prop) : Table → Prop
  | origin {t : Table} : origin t → Reachable origin allowed t
  | edit {t : Table} {e : Edit} :
      Reachable origin allowed t → allowed e → t.HasIdFor e → Reachable origin allowed (t.edit e)

/-- The tables that all others come of: those without rows, and those that some bytes are
the text of. -/
def IsOrigin (t : Table) : Prop :=
  (∃ columns, t = ofColumns columns) ∨ ∃ input, parse input = .ok t

/-- A header, and rows as wide as that. -/
structure WellFormed (t : Table) : Prop where
  header : t.header ≠ []
  width : ∀ row ∈ t.rows, row.length = t.header.length

/-! ## How a table begins -/

theorem wellFormed_ofColumns (columns : List String) : (ofColumns columns).WellFormed :=
  ⟨List.cons_ne_nil _ _, List.forall_mem_nil _⟩

theorem readRecord_ne_nil {bytes behind : Bytes} {record : List String}
    (read : readRecord bytes = .ok (record, behind)) : record ≠ [] := by
  rintro rfl
  rw [readRecord] at read
  split at read
  · cases read
  · cases read
  · split at read
    · split at read <;> cases read
    · split at read <;> cases read

theorem length_of_mem_readRows {width : Nat} {rest : Bytes} {rows : List (List String)}
    (read : readRows input width rest = .ok rows) : ∀ row ∈ rows, row.length = width := by
  fun_induction readRows input width rest generalizing rows with
  | case1 =>
    cases read
    exact List.forall_mem_nil _
  | case2 | case3 | case4 => cases read
  | case5 =>
    rename_i fits _ _ ih
    cases read
    exact List.forall_mem_cons.mpr ⟨Decidable.not_not.mp fits, ih ‹_›⟩

theorem wellFormed_of_parse (parsed : parse input = .ok t) : t.WellFormed := by
  -- All but one of the branches are faults.
  simp only [parse] at parsed
  split at parsed
  · cases parsed
  split at parsed
  · cases parsed
  split at parsed
  · cases parsed
  split at parsed
  · cases parsed
  split at parsed
  · cases parsed
  · rename_i headed
    split at parsed
    · cases parsed
    · rename_i read
      cases parsed
      exact ⟨readRecord_ne_nil headed, length_of_mem_readRows read⟩

theorem IsOrigin.wellFormed (origin : t.IsOrigin) : t.WellFormed := by
  obtain ⟨columns, rfl⟩ | ⟨input, parsed⟩ := origin
  · exact wellFormed_ofColumns columns
  · exact wellFormed_of_parse parsed

/-! ## Calls -/

section Calls

variable {row : List String} {id : String} {after : Table}

theorem insert_eq_ok_iff {given : UInt64} :
    t.insert row = .ok (given, after) ↔
      row.length + 1 = t.header.length ∧ given = t.serialId ∧
        after = ⟨t.serialId + 1, t.header, t.rows ++ [idText t.serialId :: row]⟩ := by
  unfold insert
  by_cases fits : row.length + 1 = t.header.length
  · rw [if_neg (not_not_intro fits)]
    simp [fits, eq_comm]
  · rw [if_pos fits]
    simp [fits]

theorem put_eq_ok_iff :
    t.put id row = .ok after ↔
      row.length + 1 = t.header.length ∧
        after =
          match t.find? id with
          | some i => { t with rows := t.rows.set i (id :: row) }
          | none => { t with rows := t.rows ++ [id :: row] } := by
  unfold put
  by_cases fits : row.length + 1 = t.header.length
  · rw [if_neg (not_not_intro fits)]
    cases t.find? id <;> simp [fits, eq_comm]
  · rw [if_pos fits]
    simp [fits]

theorem erase?_eq_some_iff :
    t.erase? id = some (row, after) ↔
      ∃ i, t.find? id = some i ∧ t.rows[i]? = some row ∧
        after = { t with rows := t.rows.eraseIdx i } := by
  simp only [erase?, Option.bind_eq_bind, Option.bind_eq_some_iff, Option.some.injEq,
    Prod.mk.injEq]
  constructor
  · rintro ⟨i, found, other, stands, rfl, rfl⟩
    exact ⟨i, found, stands, rfl⟩
  · rintro ⟨i, found, stands, rfl⟩
    exact ⟨i, found, row, stands, rfl, rfl⟩

theorem setField?_eq_some_iff {column : Nat} {value : String} :
    t.setField? id column value = some after ↔
      ∃ i row, t.find? id = some i ∧ t.rows[i]? = some row ∧ column < row.length ∧
        after = { t with rows := t.rows.set i (row.set column value) } := by
  simp only [setField?, Option.bind_eq_bind, Option.bind_eq_some_iff, Option.ite_none_right_eq_some,
    Option.some.injEq]
  constructor
  · rintro ⟨i, found, row, stands, inside, rfl⟩
    exact ⟨i, row, found, stands, inside, rfl⟩
  · rintro ⟨i, row, found, stands, inside, rfl⟩
    exact ⟨i, found, row, stands, inside, rfl⟩

end Calls

/-- A call puts in rows of the same width, if any. -/
theorem WellFormed.edit (wf : t.WellFormed) (e : Edit) : (t.edit e).WellFormed := by
  cases e with
  | insert row =>
    simp only [Table.edit]
    split
    · rename_i inserted
      obtain ⟨fits, rfl, rfl⟩ := insert_eq_ok_iff.mp inserted
      refine ⟨wf.header, List.forall_mem_append.mpr ⟨wf.width, ?_⟩⟩
      exact List.forall_mem_singleton.mpr fits
    · exact wf
  | put id row =>
    simp only [Table.edit]
    split
    · rename_i replaced
      obtain ⟨fits, rfl⟩ := put_eq_ok_iff.mp replaced
      split
      · refine ⟨wf.header, fun other member => ?_⟩
        obtain member | rfl := List.mem_or_eq_of_mem_set member
        · exact wf.width other member
        · exact fits
      · refine ⟨wf.header, List.forall_mem_append.mpr ⟨wf.width, ?_⟩⟩
        exact List.forall_mem_singleton.mpr fits
    · exact wf
  | erase id =>
    simp only [Table.edit]
    split
    · rename_i erased
      obtain ⟨i, _, _, rfl⟩ := erase?_eq_some_iff.mp erased
      exact ⟨wf.header, fun other member => wf.width other (List.mem_of_mem_eraseIdx member)⟩
    · exact wf
  | setField id column value =>
    simp only [Table.edit]
    cases set : t.setField? id column value with
    | none => exact wf
    | some after =>
      obtain ⟨i, row, _, found, _, rfl⟩ := setField?_eq_some_iff.mp set
      refine ⟨wf.header, fun other member => ?_⟩
      obtain member | rfl := List.mem_or_eq_of_mem_set member
      · exact wf.width other member
      · rw [List.length_set]
        exact wf.width row (List.mem_of_getElem? found)

theorem Reachable.wellFormed {allowed : Edit → Prop} (reachable : Reachable IsOrigin allowed t) :
    t.WellFormed := by
  induction reachable with
  | origin origin => exact origin.wellFormed
  | edit _ _ _ wf => exact wf.edit _

end Table

end Octets.Csv
