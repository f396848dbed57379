import Octets.Proofs.Csv.Reachable
import Octets.Proofs.Csv.Written
import Mathlib.Data.List.Basic

/-!
# Tables come back from their bytes

The bytes of a table are parsed as that table, whatever its fields hold: the serial id
comes back from its decimal digits, and the header and the rows from the records that are
written for them.

## Main results

* `Table.decimal_idText` — an id comes back from its digits
* `Table.parse_append`, `Table.readRows_append` — parsing by lines
* `Table.parse_bytes_of_wellFormed` — a table that has a header, and rows as wide, comes back
* `Table.parse_bytes` — every table that comes of calls comes back
-/

namespace Octets.Csv.Table

variable {t : Table} {record : List String} {written behind digits : Bytes}

/-! ## Decimal digits -/

theorem digit_bounds {n : Nat} {c : Char} (member : c ∈ Nat.toDigits 10 n) :
    0x30 ≤ c.toNat ∧ c.toNat ≤ 0x39 :=
  Char.isDigit_iff_toNat.mp (Nat.isDigit_of_mem_toDigits (by decide) (by decide) member)

theorem ofText_idText (id : UInt64) :
    Bytes.ofText (idText id) = (Nat.toDigits 10 id.toNat).map fun c => .ofNat c.toNat := by
  rw [idText, Nat.toString_eq_ofList_toDigits]
  exact Utf8.ofText_ofList_of_ascii fun c member =>
    Nat.lt_of_le_of_lt (digit_bounds member).2 (by decide)

theorem toNat_ofNat_digit {n : Nat} {c : Char} (member : c ∈ Nat.toDigits 10 n) :
    (UInt8.ofNat c.toNat).toNat = c.toNat :=
  UInt8.toNat_ofNat_of_lt (Nat.lt_of_le_of_lt (digit_bounds member).2 (by decide))

theorem isDigit_of_mem_idText {b : UInt8} {id : UInt64} (member : b ∈ Bytes.ofText (idText id)) :
    Byte.isDigit b = true := by
  rw [ofText_idText] at member
  obtain ⟨c, digit, rfl⟩ := List.mem_map.mp member
  have bounds := digit_bounds digit
  rw [← toNat_ofNat_digit digit] at bounds
  simpa [Byte.isDigit, UInt8.le_iff_toNat_le] using bounds

theorem ofText_idText_ne_nil (id : UInt64) : Bytes.ofText (idText id) ≠ [] := by
  rw [ofText_idText]
  exact fun empty => Nat.toDigits_ne_nil (List.map_eq_nil_iff.mp empty)

/-- An id comes back from its digits. -/
theorem decimal_idText (id : UInt64) : decimal (Bytes.ofText (idText id)) = id.toNat := by
  rw [ofText_idText, decimal, List.foldl_map]
  calc
    _ = Nat.ofDigitChars 10 (Nat.toDigits 10 id.toNat) 0 := by
      rw [Nat.ofDigitChars_eq_foldl]
      refine List.foldl_ext _ _ _ fun n c digit => ?_
      rw [toNat_ofNat_digit digit, Nat.mul_comm]
      rfl
    _ = id.toNat := Nat.ofDigitChars_ten_toDigits

/-! ## Lines -/

/-- What follows the line with the serial id decides the rest. -/
theorem parse_append (decimals : ∀ b ∈ digits, Byte.isDigit b = true) (occupied : digits ≠ [])
    (bound : decimal digits < UInt64.size) (rest : Bytes) :
    parse (digits ++ Byte.lf :: rest) =
      if skipBlankLines rest = [] then .error .emptyHeader
      else
        match readRecord (skipBlankLines rest) with
        | .error fault => .error (faultAt (digits ++ Byte.lf :: rest) fault)
        | .ok (header, behind) =>
          (readRows (digits ++ Byte.lf :: rest) header.length behind).map fun rows =>
            ⟨UInt64.ofNat (decimal digits), header, rows⟩ := by
  have front : (digits ++ Byte.lf :: rest).takeWhile Byte.isDigit = digits := by
    rw [List.takeWhile_append_of_pos decimals, List.takeWhile_cons_of_neg (by decide),
      List.append_nil]
  have valid : ¬ (digits.isEmpty = true ∨ UInt64.size ≤ decimal digits) := by
    simp [occupied, bound]
  simp only [parse, front, List.drop_left, if_neg valid]
  rw [if_neg (not_not_intro rfl)]
  cases skipBlankLines rest with
  | nil => rfl
  | cons b rest' =>
    rw [if_neg (List.cons_ne_nil _ _)]
    simp only
    cases readRecord (b :: rest') with
    | error fault => rfl
    | ok read =>
      simp only
      cases readRows (digits ++ Byte.lf :: rest) read.1.length read.2 <;> rfl

/-- A written record at the front is the first row, if it is as wide as the header. -/
theorem readRows_append (write : WrittenFields record written) (visible : written ≠ [])
    (ends : ∀ b ∈ behind.head?, b = Byte.lf) (input : Bytes) (width : Nat) :
    readRows input width (written ++ behind) =
      if record.length ≠ width then
        .error (.rowWidth (input.lineAt (input.length - (written ++ behind).length)) width
          record.length)
      else (readRows input width behind.tail).map (record :: ·) := by
  have found := write.skipBlankLines_append visible behind
  have read := write.readRecord_append ends
  rw [readRows]
  split
  · rename_i none
    exact absurd (found.symm.trans none) (List.append_ne_nil_of_left_ne_nil visible _)
  · rename_i b more next
    have front : written ++ behind = b :: more := found.symm.trans next
    rw [front] at read
    split
    · rename_i refused
      cases read.symm.trans refused
    · rename_i row last taken
      cases read.symm.trans taken
      rw [← List.length_cons, ← front]
      split
      · rfl
      · cases readRows input width behind.tail <;> rfl

theorem readRows_nil (input : Bytes) (width : Nat) : readRows input width [] = .ok [] := by
  rw [readRows]
  rfl

theorem bytes_eq (t : Table) :
    t.bytes = Bytes.ofText (idText t.serialId) ++ Byte.lf ::
      (t.header :: t.rows).flatMap fun record => Bytes.ofText (writeRecord record) := by
  rw [bytes, text, Utf8.ofText_append, Utf8.ofText_append, Utf8.ofText_join, List.flatMap_map,
    List.append_assoc]
  rfl

/-- Rows of one width come back, if they have any columns. -/
theorem readRows_flatMap (input : Bytes) {width : Nat} (occupied : width ≠ 0)
    {rows : List (List String)} (fits : ∀ row ∈ rows, row.length = width) :
    readRows input width (rows.flatMap fun row => Bytes.ofText (writeRecord row)) = .ok rows := by
  induction rows with
  | nil => exact readRows_nil input width
  | cons row rows ih =>
    obtain ⟨fit, fits⟩ := List.forall_mem_cons.mp fits
    -- A row without fields would be written as a blank line and be lost.
    have filled : row ≠ [] := by
      rintro rfl
      exact occupied fit.symm
    obtain ⟨written, write, visible, bytes⟩ := writtenFields_writeRecord filled
    rw [List.flatMap_cons, bytes, List.append_assoc, List.singleton_append,
      readRows_append write visible (by simp), if_neg (not_not_intro fit), List.tail_cons, ih fits]
    rfl

/-- A table comes back if it has a header, and rows as wide as that. -/
theorem parse_bytes_of_wellFormed (wf : t.WellFormed) : parse t.bytes = .ok t := by
  have bound : decimal (Bytes.ofText (idText t.serialId)) < UInt64.size := by
    rw [decimal_idText]
    exact t.serialId.toNat_lt
  rw [bytes_eq, parse_append (fun b => isDigit_of_mem_idText) (ofText_idText_ne_nil _) bound]
  obtain ⟨written, write, visible, line⟩ := writtenFields_writeRecord wf.header
  rw [List.flatMap_cons, line, List.append_assoc, List.singleton_append,
    write.skipBlankLines_append visible, if_neg (List.append_ne_nil_of_left_ne_nil visible _),
    write.readRecord_append (by simp)]
  simp only
  rw [List.tail_cons, readRows_flatMap _ (List.length_eq_zero_iff.not.mpr wf.header) wf.width,
    decimal_idText, UInt64.ofNat_toNat]
  rfl

/-- A table that comes of any calls on one made of columns or parsed from bytes comes back
from its own bytes. -/
theorem parse_bytes {allowed : Edit → Prop} (reachable : Reachable IsOrigin allowed t) :
    parse t.bytes = .ok t :=
  parse_bytes_of_wellFormed reachable.wellFormed

/-- A single column, with a row of an empty field and one that needs quotes. -/
theorem parse_bytes_singleColumn :
    let t := (((ofColumns []).edit (.insert [])).edit (.setField "0" 0 "")).edit
      (.put "\",\r\n" [])
    t = ⟨1, ["id"], [[""], ["\",\r\n"]]⟩ ∧ parse t.bytes = .ok t := by
  have created : Reachable IsOrigin (fun _ => True) (ofColumns []) := .origin (.inl ⟨[], rfl⟩)
  have left : (0 : Nat) + 1 < UInt64.size := by decide
  have inserted := created.edit (e := .insert []) trivial left
  have emptied := inserted.edit (e := .setField "0" 0 "") trivial trivial
  exact ⟨by decide, parse_bytes (emptied.edit (e := .put "\",\r\n" []) trivial trivial)⟩

end Octets.Csv.Table
