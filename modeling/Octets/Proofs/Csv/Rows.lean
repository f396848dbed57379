import Octets.Proofs.Csv.Ids

/-!
# Rows as an ordered list of keyed records

Each call on a table finds the first row with its id and leaves all others alone, in their
order. Rows may share an id; then the ones behind the first are others, too. To put a row
replaces the first one with its id or appends it, to erase takes the first one out, and to set a
field changes one cell of it. What does not fit changes nothing, and no call changes the header.

Ids are given out one after another, whatever calls come in between, so none comes twice.

## Main definitions

* `Table.Splits` — the first row with an id, between the rows in front of it and behind it
* `Table.givenIds` — the ids that calls give out

## Main results

* `Table.put_eq_ok_iff_splits`, `Table.erase?_eq_some_iff_splits`,
  `Table.setField?_eq_some_iff_splits` — what a call does, told from the first row with the id
* `Table.get?_replace_of_ne` — the rows that are found by other ids
* `Table.map_toNat_givenIds` — ids are consecutive
* `Table.rows_keyed` — all of it together
-/

namespace Octets.Csv.Table

variable {t after : Table} {id other : String} {row old new : List String}
  {front back : List (List String)} {column i : Nat} {value : String}

/-! ## The first row with an id -/

/-- The first row with an id stands between rows with other ids, and any rows. -/
structure Splits (t : Table) (id : String) (front : List (List String)) (row : List String)
    (back : List (List String)) : Prop where
  rows : t.rows = front ++ row :: back
  has : row.head? = some id
  first : ∀ other ∈ front, other.head? ≠ some id

theorem hasId_iff : hasId id row = true ↔ row.head? = some id := beq_iff_eq

theorem Splits.find?_eq (splits : t.Splits id front row back) :
    t.find? id = some front.length := by
  have absent : front.findIdx? (hasId id) = none :=
    List.findIdx?_eq_none_iff.mpr fun other member =>
      Bool.eq_false_iff.mpr fun has => splits.first other member (hasId_iff.mp has)
  rw [find?, splits.rows, List.findIdx?_append, absent, Option.none_or, List.findIdx?_cons,
    if_pos (hasId_iff.mpr splits.has), Option.map_some, Nat.zero_add]

/-- To find an id is to split the rows at the first row that has it. -/
theorem exists_splits_iff :
    (∃ front back, t.Splits id front row back ∧ front.length = i) ↔
      t.find? id = some i ∧ t.rows[i]? = some row := by
  constructor
  · rintro ⟨front, back, splits, rfl⟩
    refine ⟨splits.find?_eq, ?_⟩
    rw [splits.rows, List.getElem?_append_right (Nat.le_refl _), Nat.sub_self,
      List.getElem?_cons_zero]
  · rintro ⟨found, stands⟩
    obtain ⟨inside, has, first⟩ := List.findIdx?_eq_some_iff_getElem.mp found
    obtain ⟨_, rfl⟩ := List.getElem?_eq_some_iff.mp stands
    refine ⟨t.rows.take i, t.rows.drop (i + 1), ⟨?_, hasId_iff.mp has, fun other member => ?_⟩,
      List.length_take_of_le (Nat.le_of_lt inside)⟩
    · rw [List.getElem_cons_drop inside, List.take_append_drop]
    · obtain ⟨j, bound, rfl⟩ := List.mem_iff_getElem.mp member
      have before : j < i := Nat.lt_of_lt_of_le bound (List.length_take_le _ _)
      rw [List.getElem_take]
      exact fun same => first j before (hasId_iff.mpr same)

theorem get?_eq_some_iff : t.get? id = some row ↔ ∃ front back, t.Splits id front row back := by
  simp only [get?, Option.bind_eq_bind, Option.bind_eq_some_iff, ← exists_splits_iff]
  constructor
  · rintro ⟨_, front, back, splits, _⟩
    exact ⟨front, back, splits⟩
  · rintro ⟨front, back, splits⟩
    exact ⟨_, front, back, splits, rfl⟩

theorem Splits.mem_ids (splits : t.Splits id front row back) : some id ∈ t.ids :=
  List.mem_map.mpr ⟨row, splits.rows ▸ List.mem_append_right front List.mem_cons_self, splits.has⟩

theorem exists_splits_of_mem_ids (member : some id ∈ t.ids) :
    ∃ front row back, t.Splits id front row back := by
  cases found : t.find? id with
  | none => exact absurd member (find?_eq_none_iff.mp found)
  | some i =>
    obtain ⟨inside, _⟩ := List.findIdx?_eq_some_iff_getElem.mp found
    have stands := List.getElem?_eq_getElem inside
    obtain ⟨front, back, splits, _⟩ := exists_splits_iff.mpr ⟨found, stands⟩
    exact ⟨front, _, back, splits⟩

/-! ## Rows that are found by other ids -/

theorem get?_eq_find? (t : Table) (id : String) : t.get? id = t.rows.find? (hasId id) :=
  List.find?_eq_bind_findIdx?_getElem?.symm

/-- A row that replaces the first one with its id is found by it. -/
theorem Splits.replace (splits : t.Splits id front old back) (has : new.head? = some id)
    (rows : after.rows = front ++ new :: back) : after.Splits id front new back :=
  ⟨rows, has, splits.first⟩

/-- For all other ids nothing has changed. -/
theorem Splits.get?_replace_of_ne (splits : t.Splits id front old back)
    (has : new.head? = some id) (rows : after.rows = front ++ new :: back) (ne : other ≠ id) :
    after.get? other = t.get? other := by
  have skips {row : List String} (has : row.head? = some id) : ¬ hasId other row = true :=
    fun has' => ne (Option.some.inj ((hasId_iff.mp has').symm.trans has))
  rw [get?_eq_find?, get?_eq_find?, rows, splits.rows, List.find?_append, List.find?_append,
    List.find?_cons_of_neg (skips has), List.find?_cons_of_neg (skips splits.has)]

theorem get?_append_of_ne (rows : after.rows = t.rows ++ [new]) (has : new.head? = some id)
    (ne : other ≠ id) : after.get? other = t.get? other := by
  have skips : ¬ hasId other new = true :=
    fun has' => ne (Option.some.inj ((hasId_iff.mp has').symm.trans has))
  rw [get?_eq_find?, get?_eq_find?, rows, List.find?_append, List.find?_cons_of_neg skips,
    List.find?_nil, Option.or_none]

/-! ## Calls -/

theorem set_length (front back : List (List String)) (old new : List String) :
    (front ++ old :: back).set front.length new = front ++ new :: back := by
  simp

/-- A row is put in the place of the first one with its id, or behind all others. -/
theorem put_eq_ok_iff_splits :
    t.put id row = .ok after ↔
      row.length + 1 = t.header.length ∧
        ((∃ front old back, t.Splits id front old back ∧
            after = { t with rows := front ++ (id :: row) :: back }) ∨
          some id ∉ t.ids ∧ after = { t with rows := t.rows ++ [id :: row] }) := by
  rw [put_eq_ok_iff, and_congr_right_iff]
  intro _
  constructor
  · rintro rfl
    by_cases member : some id ∈ t.ids
    · obtain ⟨front, old, back, splits⟩ := exists_splits_of_mem_ids member
      refine .inl ⟨front, old, back, splits, ?_⟩
      rw [splits.find?_eq, splits.rows]
      simp only [set_length]
    · exact .inr ⟨member, by rw [find?_eq_none_iff.mpr member]⟩
  · rintro (⟨front, old, back, splits, rfl⟩ | ⟨absent, rfl⟩)
    · rw [splits.find?_eq, splits.rows]
      simp only [set_length]
    · rw [find?_eq_none_iff.mpr absent]

/-- The first row with an id is taken out. -/
theorem erase?_eq_some_iff_splits :
    t.erase? id = some (row, after) ↔
      ∃ front back, t.Splits id front row back ∧ after = { t with rows := front ++ back } := by
  have erased (front back : List (List String)) :
      (front ++ row :: back).eraseIdx front.length = front ++ back := by
    rw [List.eraseIdx_append_of_length_le (Nat.le_refl _), Nat.sub_self, List.eraseIdx_cons_zero]
  rw [erase?_eq_some_iff]
  constructor
  · rintro ⟨i, found, stands, rfl⟩
    obtain ⟨front, back, splits, rfl⟩ := exists_splits_iff.mpr ⟨found, stands⟩
    exact ⟨front, back, splits, by rw [splits.rows, erased]⟩
  · rintro ⟨front, back, splits, rfl⟩
    obtain ⟨found, stands⟩ := exists_splits_iff.mp ⟨front, back, splits, rfl⟩
    exact ⟨front.length, found, stands, by rw [splits.rows, erased]⟩

theorem erase?_eq_none_iff : t.erase? id = none ↔ some id ∉ t.ids := by
  constructor
  · intro refused member
    obtain ⟨front, row, back, splits⟩ := exists_splits_of_mem_ids member
    cases refused.symm.trans (erase?_eq_some_iff_splits.mpr ⟨front, back, splits, rfl⟩)
  · intro absent
    refine Option.eq_none_iff_forall_ne_some.mpr fun ⟨row, after⟩ erased => ?_
    obtain ⟨_, _, splits, _⟩ := erase?_eq_some_iff_splits.mp erased
    exact absent splits.mem_ids

/-- One cell of the first row with an id is set. -/
theorem setField?_eq_some_iff_splits :
    t.setField? id column value = some after ↔
      ∃ front row back, t.Splits id front row back ∧ column < row.length ∧
        after = { t with rows := front ++ row.set column value :: back } := by
  rw [setField?_eq_some_iff]
  constructor
  · rintro ⟨i, row, found, stands, inside, rfl⟩
    obtain ⟨front, back, splits, rfl⟩ := exists_splits_iff.mpr ⟨found, stands⟩
    exact ⟨front, row, back, splits, inside, by rw [splits.rows, set_length]⟩
  · rintro ⟨front, row, back, splits, inside, rfl⟩
    obtain ⟨found, stands⟩ := exists_splits_iff.mp ⟨front, back, splits, rfl⟩
    exact ⟨front.length, row, found, stands, inside, by rw [splits.rows, set_length]⟩

theorem setField?_eq_none_iff :
    t.setField? id column value = none ↔ ∀ row, t.get? id = some row → row.length ≤ column := by
  constructor
  · intro refused row found
    obtain ⟨front, back, splits⟩ := get?_eq_some_iff.mp found
    refine Nat.le_of_not_lt fun inside => ?_
    cases refused.symm.trans
      (setField?_eq_some_iff_splits.mpr ⟨front, row, back, splits, inside, rfl⟩)
  · intro short
    refine Option.eq_none_iff_forall_ne_some.mpr fun after set => ?_
    obtain ⟨front, row, back, splits, inside, _⟩ := setField?_eq_some_iff_splits.mp set
    exact absurd inside (Nat.not_lt_of_le (short row (get?_eq_some_iff.mpr ⟨front, back, splits⟩)))

/-- What is found by the id that a row is put under, and what by other ids. -/
theorem get?_of_put (put : t.put id row = .ok after) :
    after.get? id = some (id :: row) ∧ ∀ other ≠ id, after.get? other = t.get? other := by
  obtain ⟨_, ⟨front, old, back, splits, rfl⟩ | ⟨absent, rfl⟩⟩ := put_eq_ok_iff_splits.mp put
  · exact ⟨get?_eq_some_iff.mpr ⟨front, back, splits.replace rfl rfl⟩,
      fun other ne => splits.get?_replace_of_ne rfl rfl ne⟩
  · refine ⟨?_, fun other ne => get?_append_of_ne rfl rfl ne⟩
    have free : t.get? id = none := by simp [get?, find?_eq_none_iff.mpr absent]
    rw [get?_of_rows_eq_append rfl, free, Option.none_or]

/-- Cells other than the first leave all ids as they are. -/
theorem get?_edit_setField_of_ne (spares : column ≠ 0) (ne : other ≠ id) :
    (t.edit (.setField id column value)).get? other = t.get? other := by
  simp only [edit]
  cases set : t.setField? id column value with
  | none => rfl
  | some after =>
    obtain ⟨front, row, back, splits, _, rfl⟩ := setField?_eq_some_iff_splits.mp set
    have has : (row.set column value).head? = some id := by
      rw [List.head?_eq_getElem?, List.getElem?_set_ne spares, ← List.head?_eq_getElem?, splits.has]
    exact splits.get?_replace_of_ne has rfl ne

theorem insert_of_misfit (misfits : row.length + 1 ≠ t.header.length) :
    t.insert row = .error (.insertWidth (t.header.length - 1) row.length) := if_pos misfits

theorem put_of_misfit (misfits : row.length + 1 ≠ t.header.length) (id : String) :
    t.put id row = .error (.putWidth (t.header.length - 1) row.length) := if_pos misfits

/-! ## Runs of calls -/

/-- The id that a call gives out, if it inserts a row. -/
def given? (t : Table) : Edit → Option UInt64
  | .insert row => (t.insert row).toOption.map Prod.fst
  | _ => none

/-- The ids that calls give out one after another. -/
def givenIds : Table → List Edit → List UInt64
  | _, [] => []
  | t, e :: edits => (t.given? e).toList ++ (t.edit e).givenIds edits

/-- There is an id behind each one that a call would give out. -/
def HasIdsFor : Table → List Edit → Prop
  | _, [] => True
  | t, e :: edits => t.HasIdFor e ∧ (t.edit e).HasIdsFor edits

instance (t : Table) (e : Edit) : Decidable (t.HasIdFor e) :=
  match e with
  | .insert _ => inferInstanceAs (Decidable (_ < _))
  | .put _ _ | .erase _ | .setField _ _ _ => isTrue trivial

instance decidableHasIdsFor : (t : Table) → (edits : List Edit) → Decidable (t.HasIdsFor edits)
  | _, [] => isTrue trivial
  | t, e :: edits =>
    have := decidableHasIdsFor (t.edit e) edits
    inferInstanceAs (Decidable (_ ∧ _))

/-- A call gives out the serial id and goes on to the next one, or it only changes rows. -/
theorem edit_cases (t : Table) (e : Edit) :
    (t.given? e = some t.serialId ∧ ∃ rows, t.edit e = ⟨t.serialId + 1, t.header, rows⟩) ∨
      t.given? e = none ∧ ∃ rows, t.edit e = { t with rows } := by
  cases e with
  | insert row =>
    simp only [given?, edit]
    cases inserted : t.insert row with
    | error fault => exact .inr ⟨rfl, t.rows, rfl⟩
    | ok result =>
      obtain ⟨_, given, after⟩ := insert_eq_ok_iff.mp inserted
      exact .inl ⟨congrArg some given, _, after⟩
  | put id row =>
    refine .inr ⟨rfl, ?_⟩
    simp only [edit]
    cases replaced : t.put id row with
    | error fault => exact ⟨t.rows, rfl⟩
    | ok after =>
      obtain ⟨_, ⟨_, _, _, _, same⟩ | ⟨_, same⟩⟩ := put_eq_ok_iff_splits.mp replaced
      · exact ⟨_, same⟩
      · exact ⟨_, same⟩
  | erase id =>
    refine .inr ⟨rfl, ?_⟩
    simp only [edit]
    cases erased : t.erase? id with
    | none => exact ⟨t.rows, rfl⟩
    | some result =>
      obtain ⟨_, _, _, same⟩ := erase?_eq_some_iff_splits.mp erased
      exact ⟨_, same⟩
  | setField id column value =>
    refine .inr ⟨rfl, ?_⟩
    simp only [edit]
    cases set : t.setField? id column value with
    | none => exact ⟨t.rows, rfl⟩
    | some after =>
      obtain ⟨_, _, _, _, _, same⟩ := setField?_eq_some_iff_splits.mp set
      exact ⟨_, same⟩

theorem header_foldl_edit (edits : List Edit) (t : Table) :
    (edits.foldl edit t).header = t.header := by
  induction edits generalizing t with
  | nil => rfl
  | cons e edits ih =>
    rw [List.foldl_cons, ih]
    obtain ⟨_, rows, same⟩ | ⟨_, rows, same⟩ := t.edit_cases e
    · rw [same]
    · rw [same]

/-- The ids that are given out are consecutive numbers, from the serial id on. -/
theorem map_toNat_givenIds {edits : List Edit} (room : t.HasIdsFor edits) :
    (t.givenIds edits).map UInt64.toNat =
      List.range' t.serialId.toNat (t.givenIds edits).length := by
  induction edits generalizing t with
  | nil => rfl
  | cons e edits ih =>
    obtain ⟨here, later⟩ := room
    rw [givenIds, List.map_append, ih later, List.length_append]
    obtain ⟨gives, rows, same⟩ | ⟨gives, rows, same⟩ := t.edit_cases e
    · -- There is room, so the serial id does not wrap around.
      have next : (t.serialId + 1).toNat = t.serialId.toNat + 1 := by
        cases e with
        | insert row => exact (UInt64.toNat_add _ _).trans (Nat.mod_eq_of_lt here)
        | _ => cases gives
      simp [gives, same, next, List.range'_succ, Nat.add_comm 1]
    · simp [gives, same]

theorem nodup_givenIds {edits : List Edit} (room : t.HasIdsFor edits) :
    (t.givenIds edits).Nodup :=
  List.Nodup.of_map UInt64.toNat (map_toNat_givenIds room ▸ List.nodup_range')

/-- A table is an ordered list of records with ids. To put a row that fits replaces the first
record with the id, or appends one if there is none, and what is found by other ids stays. To
erase takes the first record with the id out. To set a field changes one cell of the first record
with the id, and nothing if there is no such cell. A row that does not fit is refused, and nothing
changes. Along any calls the header stays, and the ids that are given out are consecutive, so that
no id is given out twice. -/
theorem rows_keyed (t : Table) :
    (∀ id row, row.length + 1 = t.header.length →
      ∃ after, t.put id row = .ok after ∧ after.get? id = some (id :: row) ∧
        (∀ other ≠ id, after.get? other = t.get? other) ∧
        ((∃ front old back, t.Splits id front old back ∧
            after = { t with rows := front ++ (id :: row) :: back }) ∨
          some id ∉ t.ids ∧ after = { t with rows := t.rows ++ [id :: row] })) ∧
    (∀ id,
      (∀ row after, t.erase? id = some (row, after) ↔
        ∃ front back, t.Splits id front row back ∧ after = { t with rows := front ++ back }) ∧
      (t.erase? id = none ↔ some id ∉ t.ids)) ∧
    (∀ id column value,
      (∀ after, t.setField? id column value = some after ↔
        ∃ front row back, t.Splits id front row back ∧ column < row.length ∧
          after = { t with rows := front ++ row.set column value :: back }) ∧
      (t.setField? id column value = none ↔
        ∀ row, t.get? id = some row → row.length ≤ column) ∧
      (t.setField? id column value = none → t.edit (.setField id column value) = t) ∧
      (column ≠ 0 → ∀ other ≠ id,
        (t.edit (.setField id column value)).get? other = t.get? other)) ∧
    (∀ row, row.length + 1 ≠ t.header.length →
      t.insert row = .error (.insertWidth (t.header.length - 1) row.length) ∧
      t.edit (.insert row) = t ∧
      ∀ id, t.put id row = .error (.putWidth (t.header.length - 1) row.length) ∧
        t.edit (.put id row) = t) ∧
    ∀ edits,
      (edits.foldl edit t).header = t.header ∧
      (t.HasIdsFor edits →
        (t.givenIds edits).map UInt64.toNat =
            List.range' t.serialId.toNat (t.givenIds edits).length ∧
          (t.givenIds edits).Nodup) := by
  refine ⟨?_, ?_, ?_, ?_, ?_⟩
  · intro id row fits
    obtain ⟨after, put⟩ : ∃ after, t.put id row = .ok after := ⟨_, put_eq_ok_iff.mpr ⟨fits, rfl⟩⟩
    obtain ⟨found, others⟩ := get?_of_put put
    exact ⟨after, put, found, others, (put_eq_ok_iff_splits.mp put).2⟩
  · intro id
    exact ⟨fun row after => erase?_eq_some_iff_splits, erase?_eq_none_iff⟩
  · intro id column value
    refine ⟨fun after => setField?_eq_some_iff_splits, setField?_eq_none_iff, fun refused => ?_,
      fun spares other ne => get?_edit_setField_of_ne spares ne⟩
    rw [edit, refused, Option.getD_none]
  · intro row misfits
    refine ⟨insert_of_misfit misfits, ?_, fun id => ⟨put_of_misfit misfits id, ?_⟩⟩
    · rw [edit, insert_of_misfit misfits]
    · rw [edit, put_of_misfit misfits]
  · intro edits
    exact ⟨header_foldl_edit edits t, fun room =>
      ⟨map_toNat_givenIds room, nodup_givenIds room⟩⟩

/-- Two rows share an id, and one row takes the id of another that has been erased. -/
theorem rows_keyed_sharedId :
    let t : Table := ⟨7, ["id", "name"], [["1", "x"], ["2", "y"], ["1", "z"]]⟩
    let edits : List Edit :=
      [.insert ["p"], .erase "7", .setField "2" 0 "7", .insert ["q", "r"], .insert ["s"]]
    (["w"].length + 1 = t.header.length ∧ ∃ after, t.put "1" ["w"] = .ok after ∧
      after.get? "1" = some ["1", "w"] ∧ after.get? "2" = t.get? "2") ∧
    (["u", "v"].length + 1 ≠ t.header.length ∧ t.edit (.put "3" ["u", "v"]) = t) ∧
    t.erase? "1" = some (["1", "x"], { t with rows := [["2", "y"], ["1", "z"]] }) ∧
    t.HasIdsFor edits ∧ (t.givenIds edits).map UInt64.toNat = [7, 8] := by
  intro t edits
  obtain ⟨puts, erases, _, refuses, runs⟩ := rows_keyed t
  have first : t.Splits "1" [] ["1", "x"] [["2", "y"], ["1", "z"]] :=
    ⟨rfl, rfl, List.forall_mem_nil _⟩
  have room : t.HasIdsFor edits := by decide +kernel
  obtain ⟨after, put, found, others, _⟩ := puts "1" ["w"] rfl
  refine ⟨⟨rfl, after, put, found, others "2" (by decide)⟩, ⟨by decide, ?_⟩, ?_, room, ?_⟩
  · exact ((refuses ["u", "v"] (by decide)).2.2 "3").2
  · exact ((erases "1").1 _ _).mpr ⟨_, _, first, rfl⟩
  · exact ((runs edits).2 room).1.trans (by decide +kernel)

end Octets.Csv.Table
