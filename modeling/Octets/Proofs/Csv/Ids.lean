import Octets.Proofs.Csv.RoundTrip
import Mathlib.Data.List.InsertIdx
import Mathlib.Data.List.Nodup

/-!
# Ids of rows

The serial id gives each number out once, but callers bring ids of their own. A row that is put
under an unknown id keeps it and leaves the serial id alone, and so the serial id may come to a
number that a row has already. If a row is inserted then, two rows have the same id, and the
older one is found.

As long as this does not happen, ids identify rows: no two rows have the same id, and an
inserted row is found by the id that is the answer. It cannot happen unless some row is put
under a number that the serial id has yet to reach.

## Main definitions

* `Table.ids` — the ids of the rows
* `Table.Made` — the tables that come of columns by calls that some condition allows
* `Table.Contests`, `Table.RunsAhead` — a row inserted under an id that is taken, and a row put
  under one that is still to be given out

## Main results

* `Table.idStep_edit` — what a call does to the ids
* `Table.get?_of_insert` — what the id of an inserted row finds
* `Table.ids_contested` — a row that is not found by its id
* `Table.ids_identify_rows` — where ids identify rows
-/

namespace Octets.Csv

/-- A call that does not write into the first column. -/
def Edit.SparesIds : Edit → Prop
  | .setField _ column _ => column ≠ 0
  | _ => True

namespace Table

/-- The ids of the rows, from the first row to the last. -/
def ids (t : Table) : List (Option String) := t.rows.map List.head?

/-- The row that a call inserts gets an id that some row has already. -/
def Contests (t : Table) : Edit → Prop
  | .insert row => row.length + 1 = t.header.length ∧ some (idText t.serialId) ∈ t.ids
  | _ => False

instance (t : Table) (e : Edit) : Decidable (t.Contests e) :=
  match e with
  | .insert _ => inferInstanceAs (Decidable (_ ∧ _))
  | .put _ _ | .erase _ | .setField _ _ _ => isFalse id

/-- A call appends a row under a number that the serial id has yet to reach. -/
def RunsAhead (t : Table) : Edit → Prop
  | .put id row =>
    row.length + 1 = t.header.length ∧ some id ∉ t.ids ∧ ∃ n, t.serialId ≤ n ∧ id = idText n
  | _ => False

/-- A call that spares the ids, and that leaves the serial id room. -/
def Permits (t : Table) (e : Edit) : Prop := e.SparesIds ∧ t.HasIdFor e

instance (t : Table) (e : Edit) : Decidable (t.Permits e) :=
  match e with
  | .insert _ => inferInstanceAs (Decidable (True ∧ _ < _))
  | .setField _ _ _ => inferInstanceAs (Decidable (_ ≠ _ ∧ True))
  | .put _ _ | .erase _ => isTrue ⟨trivial, trivial⟩

/-- A permitted call that inserts no row under an id that is taken. -/
def Uncontested (t : Table) (e : Edit) : Prop := t.Permits e ∧ ¬ t.Contests e

instance (t : Table) (e : Edit) : Decidable (t.Uncontested e) :=
  inferInstanceAs (Decidable (_ ∧ _))

/-- A permitted call that puts no row under a number that the serial id has yet to reach. -/
def StaysBehind (t : Table) (e : Edit) : Prop := t.Permits e ∧ ¬ t.RunsAhead e

/-- The tables that come of columns by calls. Whether a call is allowed may depend on the table
that it is made on. -/
inductive Made (allowed : Table → Edit → Prop) : Table → Prop
  | columns (columns : List String) : Made allowed (ofColumns columns)
  | edit {t : Table} {e : Edit} : Made allowed t → allowed t e → Made allowed (t.edit e)

variable {t after : Table} {e : Edit} {id : String} {row : List String} {i : Nat} {n given : UInt64}

/-! ## Finding rows -/

theorem find?_eq_none_iff : t.find? id = none ↔ some id ∉ t.ids := by
  simp [find?, ids, hasId, List.findIdx?_eq_none_iff]

/-- A row that is found has the id. -/
theorem getElem?_ids_of_find? (found : t.find? id = some i) : t.ids[i]? = some (some id) := by
  obtain ⟨inside, has, _⟩ := List.findIdx?_eq_some_iff_getElem.mp found
  simpa [ids, hasId, inside] using has

/-- A row behind all others is found by its id, unless one of the others has that id. -/
theorem get?_of_rows_eq_append (rows : after.rows = t.rows ++ [id :: row]) :
    after.get? id = (t.get? id).or (some (id :: row)) := by
  have last : List.findIdx? (hasId id) [id :: row] = some 0 := by simp [hasId]
  have found : after.find? id = (t.find? id).or (some t.rows.length) := by
    rw [find?, rows, List.findIdx?_append, last, Option.map_some, Nat.zero_add]
    rfl
  simp only [get?, found, rows, Option.bind_eq_bind]
  cases before : t.find? id with
  | none => simp
  | some i =>
    obtain ⟨inside, _⟩ := List.findIdx?_eq_some_iff_getElem.mp before
    simp [inside, List.getElem?_append_left inside]

/-- The id of an inserted row finds that row, unless it is taken. -/
theorem get?_of_insert (inserted : t.insert row = .ok (given, after)) :
    given = t.serialId ∧ after.get? (idText given) =
      (t.get? (idText given)).or (some (idText given :: row)) := by
  obtain ⟨_, rfl, rfl⟩ := insert_eq_ok_iff.mp inserted
  exact ⟨rfl, get?_of_rows_eq_append rfl⟩

/-! ## Ids as numbers -/

theorem idText_injective : Function.Injective idText := by
  intro n m same
  have digits := congrArg (decimal ∘ Bytes.ofText) same
  simp only [Function.comp_apply, decimal_idText] at digits
  exact UInt64.toNat_inj.mp digits

/-! ## Calls -/

theorem set_eq_self {ids : List (Option String)} {first : Option String}
    (stands : ids[i]? = some first) : ids.set i first = ids := by
  obtain ⟨inside, rfl⟩ := List.getElem?_eq_some_iff.mp stands
  exact List.set_getElem_self inside

/-- What a call does to the ids. -/
inductive IdStep (t : Table) : Edit → Table → Prop
  | keeps {e : Edit} {after : Table} :
      after.ids = t.ids → after.serialId = t.serialId → IdStep t e after
  | gives {row : List String} {after : Table} :
      row.length + 1 = t.header.length → after.ids = t.ids ++ [some (idText t.serialId)] →
        after.serialId = t.serialId + 1 → IdStep t (.insert row) after
  | takes {id : String} {row : List String} {after : Table} :
      row.length + 1 = t.header.length → some id ∉ t.ids → after.ids = t.ids ++ [some id] →
        after.serialId = t.serialId → IdStep t (.put id row) after
  | erases {id : String} {i : Nat} {after : Table} :
      after.ids = t.ids.eraseIdx i → after.serialId = t.serialId → IdStep t (.erase id) after

theorem idStep_edit (spares : e.SparesIds) : t.IdStep e (t.edit e) := by
  cases e with
  | insert row =>
    simp only [edit]
    split
    · obtain ⟨fits, _, rfl⟩ := insert_eq_ok_iff.mp ‹_›
      exact .gives fits (by simp [ids]) rfl
    · exact .keeps rfl rfl
  | put id row =>
    simp only [edit]
    split
    · obtain ⟨fits, rfl⟩ := put_eq_ok_iff.mp ‹_›
      split
      · rename_i i found
        -- The row that is replaced has the id already.
        refine .keeps ?_ rfl
        simp only [ids, List.map_set, List.head?_cons]
        exact set_eq_self (getElem?_ids_of_find? found)
      · rename_i absent
        exact .takes fits (find?_eq_none_iff.mp absent) (by simp [ids]) rfl
    · exact .keeps rfl rfl
  | erase id =>
    simp only [edit]
    split
    · obtain ⟨i, _, _, rfl⟩ := erase?_eq_some_iff.mp ‹_›
      exact .erases (i := i) (List.eraseIdx_map List.head? t.rows i).symm rfl
    · exact .keeps rfl rfl
  | setField id column value =>
    simp only [edit]
    cases set : t.setField? id column value with
    | none => exact .keeps rfl rfl
    | some after =>
      obtain ⟨i, row, _, found, _, rfl⟩ := setField?_eq_some_iff.mp set
      refine .keeps ?_ rfl
      -- The first field of the row is not the one that is set.
      have head : (row.set column value).head? = row.head? := by
        simp [List.head?_eq_getElem?, show column ≠ 0 from spares]
      have stands : t.ids[i]? = some row.head? := by simp [ids, found]
      simp only [Option.getD_some, ids, List.map_set, head]
      exact set_eq_self stands

/-! ## Runs of calls -/

theorem Made.mono {allowed permitted : Table → Edit → Prop} (made : Made allowed t)
    (imp : ∀ t e, Made allowed t → allowed t e → permitted t e) : Made permitted t := by
  induction made with
  | columns columns => exact .columns columns
  | edit made allows ih => exact .edit ih (imp _ _ made allows)

/-- Uncontested, no two rows have the same id. -/
theorem nodup_ids (made : Made Uncontested t) : t.ids.Nodup := by
  induction made with
  | columns => exact List.nodup_nil
  | @edit t e _ allows ih =>
    obtain ⟨⟨spares, _⟩, free⟩ := allows
    cases idStep_edit (t := t) spares with
    | keeps same => exact same ▸ ih
    | gives fits more =>
      rw [more, ← List.concat_eq_append, List.nodup_concat]
      exact ⟨fun taken => free ⟨fits, taken⟩, ih⟩
    | takes _ unknown more =>
      rw [more, ← List.concat_eq_append, List.nodup_concat]
      exact ⟨unknown, ih⟩
    | erases less =>
      rw [less]
      exact ih.eraseIdx _

/-- Unless a row is put ahead of it, the serial id is ahead of all numbers that are ids. -/
theorem lt_serialId_of_mem_ids (made : Made StaysBehind t) (member : some (idText n) ∈ t.ids) :
    n < t.serialId := by
  induction made with
  | columns => cases member
  | @edit t e _ allows ih =>
    obtain ⟨⟨spares, room⟩, behind⟩ := allows
    cases idStep_edit (t := t) spares with
    | keeps same serial =>
      rw [same] at member
      exact serial ▸ ih member
    | gives _ more serial =>
      rw [more, List.mem_append, List.mem_singleton, Option.some.injEq] at member
      -- There is room, so the serial id does not wrap around.
      have next : (t.serialId + 1).toNat = t.serialId.toNat + 1 := by
        rw [UInt64.toNat_add]
        exact Nat.mod_eq_of_lt room
      rw [serial, UInt64.lt_iff_toNat_lt, next]
      obtain before | now := member
      · exact Nat.lt_succ_of_lt (UInt64.lt_iff_toNat_lt.mp (ih before))
      · rw [idText_injective now]
        exact Nat.lt_succ_self _
    | takes fits unknown more serial =>
      rw [more, List.mem_append, List.mem_singleton, Option.some.injEq] at member
      rw [serial]
      obtain before | now := member
      · exact ih before
      · exact UInt64.not_le.mp fun ahead => behind ⟨fits, unknown, n, ahead, now.symm⟩
    | erases less serial =>
      rw [less] at member
      exact serial ▸ ih (List.mem_of_mem_eraseIdx member)

theorem not_contests_of_staysBehind (made : Made StaysBehind t) (e : Edit) : ¬ t.Contests e := by
  cases e with
  | insert row => exact fun contests => UInt64.lt_irrefl _ (lt_serialId_of_mem_ids made contests.2)
  | _ => exact id

/-- An inserted row whose id was free is found by it. -/
theorem get?_of_uncontested_insert (uncontested : t.Uncontested (.insert row))
    (inserted : t.insert row = .ok (given, after)) :
    after.get? (idText given) = some (idText given :: row) := by
  obtain ⟨fits, _, _⟩ := insert_eq_ok_iff.mp inserted
  obtain ⟨rfl, found⟩ := get?_of_insert inserted
  have free : t.find? (idText t.serialId) = none :=
    find?_eq_none_iff.mpr fun taken => uncontested.2 ⟨fits, taken⟩
  rw [found]
  simp [get?, free]

/-- A row is put under the number that comes next, and another one is inserted under it. They
have the same id, and it finds the older row. -/
theorem ids_contested :
    let t := (ofColumns ["name"]).edit (.put "0" ["x"])
    let after := t.edit (.insert ["y"])
    Made Permits t ∧ Made Permits after ∧ t.insert ["y"] = .ok (0, after) ∧
      ¬ after.ids.Nodup ∧ after.get? (idText 0) = some ["0", "x"] := by
  intro t after
  have made : Made Permits t := .edit (.columns _) (by decide)
  have made' : Made Permits after := .edit made (by decide +kernel)
  exact ⟨made, made', by decide +kernel, by decide +kernel, by decide +kernel⟩

/-- Where no row is inserted under an id that is taken, no two rows have the same id, and an
inserted row is found by the id that is the answer. An id is never taken then as long as no row
is put under a number that the serial id has yet to reach. -/
theorem ids_identify_rows :
    (∀ t, Made Uncontested t → t.ids.Nodup ∧
      ∀ row given after, t.Uncontested (.insert row) → t.insert row = .ok (given, after) →
        after.get? (idText given) = some (idText given :: row)) ∧
    ∀ t, Made StaysBehind t → Made Uncontested t ∧ ∀ e, ¬ t.Contests e := by
  refine ⟨fun t made => ⟨nodup_ids made, fun _ _ _ => get?_of_uncontested_insert⟩, ?_⟩
  intro t made
  exact ⟨made.mono fun _ e made allows => ⟨allows.1, not_contests_of_staysBehind made e⟩,
    not_contests_of_staysBehind made⟩

/-- A row under a number that is still far off, and one that comes back under its old id. -/
theorem ids_identify_rows_migrated :
    let first := (ofColumns ["name"]).edit (.insert ["a"])
    let migrated := (first.edit (.put "7" ["m"])).edit (.erase "0")
    let back := (first.edit (.erase "0")).edit (.put "0" ["a"])
    (Made Uncontested migrated ∧ migrated.Uncontested (.insert ["b"]) ∧ migrated.ids.Nodup ∧
      (migrated.edit (.insert ["b"])).get? (idText 1) = some [idText 1, "b"]) ∧
    Made StaysBehind back ∧ Made Uncontested back ∧ ¬ back.Contests (.insert ["b"]) := by
  intro first migrated back
  have made : Made Uncontested migrated :=
    .edit (.edit (.edit (.columns _) (by decide +kernel)) (by decide)) (by decide)
  have free : migrated.Uncontested (.insert ["b"]) := by decide +kernel
  have inserted : migrated.insert ["b"] = .ok (1, migrated.edit (.insert ["b"])) := by
    decide +kernel
  have behind : (first.edit (.erase "0")).StaysBehind (.put "0" ["a"]) := by
    refine ⟨by decide, fun ⟨_, _, n, ahead, same⟩ => ?_⟩
    obtain rfl : 0 = n := idText_injective same
    exact absurd ahead (by decide +kernel)
  have made' : Made StaysBehind back :=
    .edit (.edit (.edit (.columns _) ⟨by decide, id⟩) ⟨by decide, id⟩) behind
  obtain ⟨distinct, found⟩ := ids_identify_rows.1 migrated made
  obtain ⟨uncontested, never⟩ := ids_identify_rows.2 back made'
  exact ⟨⟨made, free, distinct, found _ _ _ free inserted⟩, made', uncontested, never _⟩

end Table

end Octets.Csv
