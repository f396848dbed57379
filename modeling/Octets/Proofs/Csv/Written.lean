import Octets.Csv.Field
import Octets.Proofs.Csv.Fields
import Octets.Proofs.Text.Ascii

/-!
# Written records

A field may be written as it is, or between double quotes with every quote inside
doubled. The reader reads either back and stops right behind it. It does so for the
fields of a record, too. Only an empty line is no record, so a record must be written
with at least one byte to be found.

## Main definitions

* `Csv.WrittenField`, `Csv.WrittenFields` — fields and records with their bytes

## Main results

* `Csv.WrittenField.readField_append` — the reader reads a written field
* `Csv.WrittenFields.readRecord_append` — the reader reads a written record
* `Csv.WrittenFields.skipBlankLines_append` — the reader finds a written record
* `Csv.writtenField_escape`, `Csv.writtenFields_writeRecord` — what the writer writes
-/

namespace Octets.Csv

variable {field : String} {record : List String} {written behind : Bytes}

/-- Every double quote doubled. -/
def doubledBytes (bytes : Bytes) : Bytes :=
  bytes.flatMap fun b => if b = Byte.doubleQuote then [b, b] else [b]

/-- A field with its bytes. -/
inductive WrittenField (field : String) : Bytes → Prop
  /-- As it is, if it holds nothing that ends a field and does not begin with a quote. -/
  | raw :
      (∀ b ∈ Bytes.ofText field, isFieldEnd b = false) →
        Byte.doubleQuote ∉ (Bytes.ofText field).head? → WrittenField field (Bytes.ofText field)
  /-- Between quotes. -/
  | quoted :
      WrittenField field
        (Byte.doubleQuote :: (doubledBytes (Bytes.ofText field) ++ [Byte.doubleQuote]))

/-- Fields with their bytes, commas in between. -/
inductive WrittenFields : List String → Bytes → Prop
  | last {field : String} {written : Bytes} :
      WrittenField field written → WrittenFields [field] written
  | cons {field : String} {fields : List String} {written more : Bytes} :
      WrittenField field written → WrittenFields fields more →
        WrittenFields (field :: fields) (written ++ Byte.comma :: more)

/-! ## Reading -/

theorem plainBytes_append (plain : ∀ b ∈ written, isFieldEnd b = false)
    (ends : ∀ b ∈ behind.head?, isFieldEnd b = true) :
    plainBytes (written ++ behind) = (written, behind) := by
  have inside : ∀ b ∈ written, (!isFieldEnd b) = true := by simpa using plain
  have outside : behind.takeWhile (fun b => !isFieldEnd b) = [] ∧
      behind.dropWhile (fun b => !isFieldEnd b) = behind := by
    cases behind with
    | nil => exact ⟨rfl, rfl⟩
    | cons b rest => simp [ends b rfl]
  rw [plainBytes, List.takeWhile_append_of_pos inside, List.dropWhile_append_of_pos inside,
    outside.1, outside.2, List.append_nil]

/-- A quoted field ends with the first quote that no other quote follows. -/
theorem quotedBytes_append (inner : Bytes) (ends : Byte.doubleQuote ∉ behind.head?) :
    quotedBytes (doubledBytes inner ++ Byte.doubleQuote :: behind) = some (inner, behind) := by
  induction inner with
  | nil =>
    cases behind with
    | nil => rfl
    | cons b rest =>
      have other : b ≠ Byte.doubleQuote := fun same => ends (same ▸ rfl)
      simp [doubledBytes, quotedBytes, other]
  | cons b inner ih =>
    by_cases quote : b = Byte.doubleQuote
    · have doubled : doubledBytes (b :: inner) = b :: b :: doubledBytes inner := by
        simp [doubledBytes, quote]
      rw [doubled, quote, List.cons_append, List.cons_append, quotedBytes_quote_quote_cons, ih]
      rfl
    · have doubled : doubledBytes (b :: inner) = b :: doubledBytes inner := by
        simp [doubledBytes, quote]
      rw [doubled, List.cons_append, quotedBytes_cons_of_ne quote, ih]
      rfl

theorem WrittenField.fieldBytes_append (write : WrittenField field written)
    (ends : ∀ b ∈ behind.head?, isFieldEnd b = true) :
    fieldBytes (written ++ behind) = some (Bytes.ofText field, behind) := by
  cases write with
  | raw plain unquoted =>
    have read := plainBytes_append plain ends
    cases all : Bytes.ofText field ++ behind with
    | nil =>
      obtain ⟨empty, rfl⟩ := List.append_eq_nil_iff.mp all
      rw [empty]; rfl
    | cons b rest =>
      have other : b ≠ Byte.doubleQuote := by
        -- A quote would be the first byte of the field or, if that is empty, end it.
        rintro rfl
        have first : (Bytes.ofText field ++ behind).head? = some Byte.doubleQuote :=
          congrArg List.head? all
        obtain first | ⟨_, first⟩ := Option.or_eq_some_iff.mp (List.head?_append ▸ first)
        · exact unquoted first
        · exact absurd (ends _ first) (by decide)
      rw [fieldBytes, if_neg other, ← all, read]
  | quoted =>
    have unquoted : Byte.doubleQuote ∉ behind.head? := fun quote =>
      absurd (ends _ quote) (by decide)
    have read := plainBytes_append (List.forall_mem_nil _) ends
    rw [List.cons_append, List.append_assoc, List.singleton_append, fieldBytes, if_pos rfl,
      quotedBytes_append _ unquoted]
    rw [List.nil_append] at read
    simp only [read, List.append_nil]

/-- The reader reads a written field, and nothing behind it. -/
theorem WrittenField.readField_append (write : WrittenField field written)
    (ends : ∀ b ∈ behind.head?, isFieldEnd b = true) :
    readField (written ++ behind) = some (field, behind) := by
  rw [readField_eq, write.fieldBytes_append ends]
  simp only [Option.map_some, Utf8.decodeLossy_ofText]

theorem readRecord_of_end {bytes : Bytes} (read : readField bytes = some (field, [])) :
    readRecord bytes = .ok ([field], []) := by
  unfold readRecord
  split <;> simp_all

theorem readRecord_of_comma {bytes rest : Bytes}
    (read : readField bytes = some (field, Byte.comma :: rest)) :
    readRecord bytes = (readRecord rest).map fun (fields, behind) => (field :: fields, behind) := by
  rw [readRecord]
  split <;> simp_all
  cases readRecord rest <;> rfl

theorem readRecord_of_lineFeed {bytes rest : Bytes}
    (read : readField bytes = some (field, Byte.lf :: rest)) :
    readRecord bytes = .ok ([field], rest) := by
  have other : Byte.lf ≠ Byte.comma := by decide
  unfold readRecord
  split <;> simp_all

/-- The reader reads the fields of a written record, and the line feed behind it. -/
theorem WrittenFields.readRecord_append (write : WrittenFields record written)
    (ends : ∀ b ∈ behind.head?, b = Byte.lf) :
    readRecord (written ++ behind) = .ok (record, behind.tail) := by
  -- The induction is on the fields; a comma follows all of them but the last.
  induction write with
  | last write =>
    have read := write.readField_append fun b member => ends b member ▸ rfl
    cases behind with
    | nil => exact readRecord_of_end read
    | cons b rest =>
      obtain rfl := ends b rfl
      exact readRecord_of_lineFeed read
  | @cons field fields written more write _ ih =>
    have follows : ∀ b ∈ (Byte.comma :: (more ++ behind)).head?, isFieldEnd b = true := by
      simp [isFieldEnd]
    have read := write.readField_append follows
    rw [List.append_assoc, List.cons_append, readRecord_of_comma read, ih]
    rfl

/-! ## Blank lines -/

theorem WrittenField.not_lineFeed (write : WrittenField field written) :
    Byte.lf ∉ written.head? := by
  intro first
  cases write with
  | raw plain _ => exact absurd (plain _ (List.mem_of_mem_head? first)) (by decide)
  | quoted => exact absurd (Option.mem_some_iff.mp first) (by decide)

theorem WrittenFields.not_lineFeed (write : WrittenFields record written) :
    Byte.lf ∉ written.head? := by
  intro first
  cases write with
  | last write => exact write.not_lineFeed first
  | cons write _ =>
    rw [List.head?_append] at first
    obtain first | ⟨_, first⟩ := Option.or_eq_some_iff.mp first
    · exact write.not_lineFeed first
    · exact absurd (Option.mem_some_iff.mp first) (by decide)

/-- A record is not taken for a blank line, unless it is written as nothing. -/
theorem WrittenFields.skipBlankLines_append (write : WrittenFields record written)
    (visible : written ≠ []) (behind : Bytes) :
    skipBlankLines (written ++ behind) = written ++ behind := by
  cases written with
  | nil => exact absurd rfl visible
  | cons b written =>
    have other : ¬ (b == Byte.lf) = true := fun same =>
      write.not_lineFeed (eq_of_beq same ▸ rfl)
    exact List.dropWhile_cons_of_neg other

theorem WrittenField.ne_nil (write : WrittenField field written) (filled : field ≠ "") :
    written ≠ [] := by
  intro empty
  cases write with
  | raw => exact filled (by rw [← Utf8.decodeLossy_ofText field, empty]; rfl)
  | quoted => cases empty

/-- Only an empty field that is the only one of its record may be written as nothing. -/
theorem WrittenFields.ne_nil (write : WrittenFields record written) (filled : record ≠ [""]) :
    written ≠ [] := by
  cases write with
  | last write => exact write.ne_nil fun empty => filled (empty ▸ rfl)
  | cons => exact List.append_ne_nil_of_right_ne_nil _ (List.cons_ne_nil _ _)

/-! ## Writing -/

theorem doubledBytes_append (bytes more : Bytes) :
    doubledBytes (bytes ++ more) = doubledBytes bytes ++ doubledBytes more := List.flatMap_append

theorem doubledBytes_of_not_mem {bytes : Bytes} (unquoted : Byte.doubleQuote ∉ bytes) :
    doubledBytes bytes = bytes := by
  induction bytes with
  | nil => rfl
  | cons b bytes ih =>
    have other : b ≠ Byte.doubleQuote := (List.ne_of_not_mem_cons unquoted).symm
    rw [doubledBytes, List.flatMap_cons, if_neg other]
    exact congrArg (b :: ·) (ih (List.not_mem_of_not_mem_cons unquoted))

/-- The bytes of doubled quotes are the doubled bytes of quotes. -/
theorem flatMap_doubleQuotes (chars : List Char) :
    (doubleQuotes chars).flatMap String.utf8EncodeChar =
      doubledBytes (chars.flatMap String.utf8EncodeChar) := by
  induction chars with
  | nil => rfl
  | cons c chars ih =>
    rw [List.flatMap_cons, doubledBytes_append, doubleQuotes]
    by_cases quote : c = '"'
    · rw [if_pos quote, quote, List.flatMap_cons, List.flatMap_cons, ih]
      rfl
    -- No byte of another character is a quote.
    · have unquoted : Byte.doubleQuote ∉ String.utf8EncodeChar c := fun member =>
        quote (Char.toNat_inj.mp (Utf8.eq_of_mem_utf8EncodeChar member (by decide)).symm)
      rw [if_neg quote, List.flatMap_cons, ih, doubledBytes_of_not_mem unquoted]

/-- An escaped field is one way to write the field. -/
theorem writtenField_escape (field : String) :
    WrittenField field (Bytes.ofText (escape field)) := by
  rw [escape, Utf8.ofText_ofList, escapeChars]
  by_cases quotes : field.toList.any needsQuotes = true
  · rw [if_pos quotes, List.flatMap_append, List.flatMap_cons, flatMap_doubleQuotes,
      ← Utf8.ofText_eq_flatMap]
    exact .quoted
  · rw [if_neg quotes, ← Utf8.ofText_eq_flatMap]
    -- An ASCII byte of the field is a character of it, and none needs quotes.
    have plain (b : UInt8) (member : b ∈ Bytes.ofText field) (ascii : b.toNat < 0x80) :
        needsQuotes (Char.ofNat b.toNat) = false :=
      Bool.eq_false_iff.mpr fun needs =>
        quotes (List.any_eq_true.mpr ⟨_, Utf8.mem_toList_of_mem_ofText member ascii, needs⟩)
    refine .raw (fun b member => Bool.eq_false_iff.mpr fun ends => ?_) fun first => ?_
    · obtain rfl | rfl : b = Byte.comma ∨ b = Byte.lf := by simpa [isFieldEnd] using ends
      · exact absurd (plain _ member (by decide)) (by decide)
      · exact absurd (plain _ member (by decide)) (by decide)
    · exact absurd (plain _ (List.mem_of_mem_head? first) (by decide)) (by decide)

theorem writtenFields_intercalate (occupied : record ≠ []) :
    WrittenFields record (Bytes.ofText (String.intercalate "," (record.map escape))) := by
  induction record with
  | nil => exact absurd rfl occupied
  | cons field fields ih =>
    cases fields with
    | nil =>
      rw [List.map_singleton, String.intercalate_singleton]
      exact .last (writtenField_escape field)
    | cons next fields =>
      rw [List.map_cons, List.map_cons, String.intercalate_cons_cons, Utf8.ofText_append,
        Utf8.ofText_append, List.append_assoc]
      exact .cons (writtenField_escape field) (ih (List.cons_ne_nil _ _))

/-- A record is written so that it is found again. -/
theorem writtenFields_writeRecord (occupied : record ≠ []) :
    ∃ written, WrittenFields record written ∧ written ≠ [] ∧
      Bytes.ofText (writeRecord record) = written ++ [Byte.lf] := by
  by_cases single : record = [""]
  · subst single
    exact ⟨_, .last .quoted, List.cons_ne_nil _ _, rfl⟩
  · have write := writtenFields_intercalate occupied
    refine ⟨_, write, write.ne_nil single, ?_⟩
    rw [writeRecord, if_neg single, Utf8.ofText_append]
    rfl

end Octets.Csv
